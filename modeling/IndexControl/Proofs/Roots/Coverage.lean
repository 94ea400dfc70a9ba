import IndexControl.Proofs.Roots.AddEach
import IndexControl.Proofs.Roots.Owner

/-!
# What the roots cover

A recursive root covers all that lies below it, and another one what lies directly in it. Plain
roots may lie in plain ones and next to recursive ones, and yet a file that is no root is covered by
one root at most: of two roots above it the upper one is plain, and what lies directly in that one
does not lie below the other. So it does not matter which walk up from a file looks for its root.

An addition that is not refused leaves covered what the other roots have covered before and what the
new root covers, and one that is refused would have covered nothing new.

## Main definitions

* `RootSet.Covers`: the root at a place covers a file.

## Main results

* `RootSet.WellFormed.covers_unique`: a file that is no root is covered by one root at most.
* `RootSet.WellFormed.covering?_eq_some_iff`, `RootSet.WellFormed.owner?_eq_some_iff_covers`: two
  look-ups of the root of a file.
* `RootSet.run_lookups_agree`: all look-ups, after any operations.
* `RootSet.WellFormed.exists_covers_add_iff`: what is covered after an addition.
* `RootSet.WellFormed.root?_add_or_absorbed`: what becomes of the other roots.
* `RootSet.run_add_coverage`: all that an addition does to what is covered.
-/

namespace IndexControl

namespace RootSet

variable {s : RootSet} {root other place file : Location} {flags : Flags}

/-- The root at a place covers a file. -/
def Covers (s : RootSet) (root file : Location) : Prop :=
  ∃ r, s.root? root = some r ∧ file.inScope root r.isRecursive = true

instance : Decidable (s.Covers root file) :=
  decidable_of_iff _ (Option.any_eq_true (fun r => file.inScope root r.isRecursive) (s.root? root))

theorem Covers.isRoot (h : s.Covers root file) : s.isRoot root = true := by
  obtain ⟨r, hr, -⟩ := h
  exact isRoot_iff.2 ⟨r, hr⟩

theorem Covers.startsWith (h : s.Covers root file) : file.startsWith root = true := by
  obtain ⟨r, -, hscope⟩ := h
  exact Location.startsWith_of_inScope hscope

/-- A file that is no root lies below each root that covers it. -/
theorem Covers.isBelow (h : s.Covers root file) (hfile : s.isRoot file = false) :
    file.isBelow root = true := by
  refine (Location.startsWith_iff_eq_or_isBelow.1 h.startsWith).resolve_left ?_
  rintro rfl
  exact Bool.noConfusion (h.isRoot.symm.trans hfile)

theorem covers_of_isRecursiveRoot (hrec : s.isRecursiveRoot root = true)
    (hstart : file.startsWith root = true) : s.Covers root file := by
  obtain ⟨r, hr, hrec⟩ := (Option.any_eq_true ..).1 hrec
  refine ⟨r, hr, ?_⟩
  rw [hrec]
  exact hstart

/-- Below its place a root covers everything if it is recursive, and else what lies directly in
it. -/
theorem covers_iff_of_isBelow (hbelow : file.isBelow root = true) :
    s.Covers root file ↔
      (s.root? root).any (fun r => r.isRecursive || file.isChildOf root) = true := by
  simp only [Covers, Location.inScope_of_isBelow hbelow, Option.any_eq_true]

/-! ### One root for a file -/

/-- Of two roots that cover a file which is no root, none lies below the other. -/
theorem WellFormed.not_isBelow_of_covers (h : s.WellFormed) (hfile : s.isRoot file = false)
    (hroot : s.Covers root file) (hother : s.Covers other file) : root.isBelow other = false := by
  rw [Bool.eq_false_iff]
  intro hnested
  obtain ⟨r, hr, hcover⟩ :=
    (Option.any_eq_true ..).1 ((covers_iff_of_isBelow (hother.isBelow hfile)).1 hother)
  rw [Bool.or_eq_true] at hcover
  rcases hcover with hrec | hchild
  · have hout := h.outermost root other hroot.isRoot ((Option.any_eq_true ..).2 ⟨r, hr, hrec⟩)
    exact Bool.noConfusion (hout.symm.trans hnested)
  · -- The file lies directly in the upper root, so it does not lie below the lower one.
    have hne := (h.canonical other hother.isRoot).ne_nil
    have hstart := Location.startsWith_of_isChildOf hne hchild (hroot.isBelow hfile)
    have hself := Location.isBelow_of_isBelow_of_startsWith hnested hstart
    rw [Location.isBelow_self] at hself
    exact Bool.noConfusion hself

/-- A file that is no root is covered by one root at most. -/
theorem WellFormed.covers_unique (h : s.WellFormed) (hfile : s.isRoot file = false)
    (hroot : s.Covers root file) (hother : s.Covers other file) : root = other := by
  rcases Location.isBelow_total hroot.startsWith hother.startsWith with heq | hbelow | hbelow
  · exact heq
  · exact Bool.noConfusion
      ((h.not_isBelow_of_covers hfile hroot hother).symm.trans hbelow)
  · exact Bool.noConfusion
      ((h.not_isBelow_of_covers hfile hother hroot).symm.trans hbelow)

/-- A walk up from a file that is no root finds the root that covers it. -/
theorem WellFormed.covering?_eq_some_iff (h : s.WellFormed) (hfile : s.isRoot file = false) :
    s.covering? file = some root ↔ s.Covers root file := by
  have hfound {place : Location} (hplace : s.covering? file = some place) :
      s.Covers place file := by
    have hmem := List.mem_of_find?_eq_some hplace
    have hcovers := List.find?_some hplace
    exact (covers_iff_of_isBelow (Location.isBelow_of_mem_ancestors hmem)).2 hcovers
  refine ⟨hfound, fun hcovers => ?_⟩
  have hbelow := hcovers.isBelow hfile
  have hmem := Location.mem_ancestors_of_isBelow hbelow (h.canonical root hcovers.isRoot).ne_nil
  have hsome : (s.covering? file).isSome = true :=
    List.find?_isSome.2 ⟨root, hmem, (covers_iff_of_isBelow hbelow).1 hcovers⟩
  obtain ⟨place, hplace⟩ := Option.isSome_iff_exists.1 hsome
  rw [hplace, h.covers_unique hfile (hfound hplace) hcovers]

/-- What is owned is covered by its owner. -/
theorem WellFormed.covers_of_owner? (h : s.WellFormed) (howner : s.owner? file = some root) :
    s.Covers root file := by
  obtain ⟨hroot, rfl | ⟨hrec, hbelow⟩⟩ := h.owner?_eq_some_iff.1 howner
  · obtain ⟨r, hr⟩ := isRoot_iff.1 hroot
    refine ⟨r, hr, ?_⟩
    rw [Location.inScope]
    split
    · exact Location.startsWith_self file
    · rw [decide_eq_true rfl, Bool.true_or]
  · exact covers_of_isRecursiveRoot hrec (Location.startsWith_of_isBelow hbelow)

/-- A file that is no root is owned by the root that covers it, if this one is recursive. -/
theorem WellFormed.owner?_eq_some_iff_covers (h : s.WellFormed) (hfile : s.isRoot file = false) :
    s.owner? file = some root ↔ s.Covers root file ∧ s.isRecursiveRoot root = true := by
  constructor
  · intro howner
    refine ⟨h.covers_of_owner? howner, ?_⟩
    obtain ⟨hroot, rfl | ⟨hrec, -⟩⟩ := h.owner?_eq_some_iff.1 howner
    · exact Bool.noConfusion (hroot.symm.trans hfile)
    · exact hrec
  · rintro ⟨hcovers, hrec⟩
    exact h.owner?_eq_some_iff.2 ⟨hcovers.isRoot, .inr ⟨hrec, hcovers.isBelow hfile⟩⟩

/-- A file that is no root may be indexed where a root covers it and no filter keeps it out. -/
theorem WellFormed.isIndexable_iff (h : s.WellFormed) (hfile : s.isRoot file = false)
    (info : FileInfo) :
    s.isIndexable file info = true ↔ (∃ root, s.Covers root file) ∧
      s.filters.isFiltered file info.kind info.isHidden = false := by
  simp only [isIndexable, hfile, Bool.false_or, Bool.and_eq_true, Bool.not_eq_true',
    Option.isSome_iff_exists, h.covering?_eq_some_iff hfile]

/-- **Every look-up finds the one root that covers a file.** After any operations on an empty set a
file that is no root is covered by one root at most. The walk that looks for the covering root finds
it, the owner is this root if it is recursive, and the file may be indexed exactly if there is such
a root and the filters let the file through. A file that is a root is owned by itself, is covered by
no recursive root but itself, and may be indexed whatever the filters say. -/
theorem run_lookups_agree (filters : Filters) (ops : List RootOp) (path : Path) (info : FileInfo) :
    let s := (empty filters).run ops
    let file := path.location
    (s.isRoot file = false →
      (∀ root other, s.Covers root file → s.Covers other file → root = other) ∧
      (∀ root, s.covering? file = some root ↔ s.Covers root file) ∧
      (∀ root, s.owner? file = some root ↔
        s.Covers root file ∧ s.isRecursiveRoot root = true) ∧
      (s.isIndexable file info = true ↔ (∃ root, s.Covers root file) ∧
        s.filters.isFiltered file info.kind info.isHidden = false)) ∧
    (s.isRoot file = true →
      s.owner? file = some file ∧
      (∀ root, s.isRecursiveRoot root = true → s.Covers root file → root = file) ∧
      ∀ filters, (s.setFilters filters).isIndexable file info = true) := by
  intro s file
  have h : s.WellFormed := (wellFormed_empty filters).run ops
  refine ⟨fun hfile => ⟨fun root other => h.covers_unique hfile,
    fun root => h.covering?_eq_some_iff hfile, fun root => h.owner?_eq_some_iff_covers hfile,
    h.isIndexable_iff hfile info⟩,
    fun hfile => ⟨?_, fun root hrec hcovers => ?_, fun filters => ?_⟩⟩
  · rw [owner?, if_pos hfile]
  · rcases Location.startsWith_iff_eq_or_isBelow.1 hcovers.startsWith with heq | hbelow
    · exact heq.symm
    · exact Bool.noConfusion ((h.outermost file root hfile hrec).symm.trans hbelow)
  · rw [isIndexable, show (s.setFilters filters).isRoot file = true from hfile, Bool.true_or]

/-- The plain root `/a/b` lies directly in the plain root `/a`. What lies directly in `/a/b` is
covered by it alone and has no owner. -/
theorem run_lookups_agree_nested :
    let ops : List RootOp :=
      [.add (Path.ofString "/a") .monitor, .add (Path.ofString "/a/b") .monitor,
        .add (Path.ofString "/a/c") .recurse]
    let s := (empty Filters.none).run ops
    let inner := (Path.ofString "/a/b").location
    let file := (Path.ofString "/a/b/x").location
    s.isRoot file = false ∧ s.isRoot inner = true ∧
      s.covering? file = some inner ∧ (∀ root, s.Covers root file → root = inner) ∧
      s.owner? file = none ∧ s.owner? inner = some inner := by
  intro ops s inner file
  obtain ⟨hfile, -⟩ := run_lookups_agree .none ops (Path.ofString "/a/b/x") default
  obtain ⟨-, hroot⟩ := run_lookups_agree .none ops (Path.ofString "/a/b") default
  have hnone : s.isRoot file = false := by decide
  have hsome : s.isRoot inner = true := by decide
  have hcovers : s.Covers inner file := by decide
  obtain ⟨hunique, hcovering, howner, -⟩ := hfile hnone
  refine ⟨hnone, hsome, (hcovering inner).2 hcovers, fun root h => hunique root inner h hcovers, ?_,
    (hroot hsome).1⟩
  rw [Option.eq_none_iff_forall_ne_some]
  intro root hroot
  obtain ⟨hcovers', hrec⟩ := (howner root).1 hroot
  rw [hunique root inner hcovers' hcovers] at hrec
  revert hrec
  decide

/-! ### What an addition does -/

/-- An addition is refused exactly if a recursive root lies above. -/
theorem WellFormed.isLive_add_iff (h : s.WellFormed) (hplace : place.canonical = place)
    (flags : Flags) : (s.add place flags).2.isLive = true ↔ s.recursiveAbove? place = none := by
  cases habove : s.recursiveAbove? place with
  | some above =>
    rw [h.add_of_recursiveAbove? hplace habove]
    simp [AddOutcome.isLive]
  | none =>
    rw [RootSet.add, hplace]
    cases s.root? place with
    | none => simp [habove, AddOutcome.isLive]
    | some root =>
      simp only
      split_ifs <;> simp [AddOutcome.isLive]

/-- The roots after an addition that is not refused. -/
theorem WellFormed.root?_add_of_live (h : s.WellFormed) (hplace : place.canonical = place)
    (flags : Flags) (hfree : s.recursiveAbove? place = none) (q : Location) :
    (s.add place flags).1.root? q =
      if q = place then some ⟨flags, (s.root? place).bind (·.volume)⟩
      else if flags.isRecursive && q.isBelow place then none
      else s.root? q := by
  rw [root?_add h hplace, hfree]
  rfl

/-- After an addition that is not refused, just that is covered which the new root covers or another
root has covered before. What has been folded into the new root lies below it. -/
theorem WellFormed.exists_covers_add_iff (h : s.WellFormed) (hplace : place.canonical = place)
    (hfree : s.recursiveAbove? place = none) :
    (∃ root, (s.add place flags).1.Covers root file) ↔
      (∃ root, root ≠ place ∧ s.Covers root file) ∨
        file.inScope place flags.isRecursive = true := by
  have hroots := h.root?_add_of_live hplace flags hfree
  have hself {file : Location} (hscope : file.inScope place flags.isRecursive = true) :
      (s.add place flags).1.Covers place file :=
    ⟨_, (hroots place).trans (if_pos rfl), hscope⟩
  constructor
  · rintro ⟨root, r, hr, hscope⟩
    rw [hroots] at hr
    split_ifs at hr with heq hfolded
    · subst heq
      obtain rfl := Option.some.inj hr
      exact .inr hscope
    · exact .inl ⟨root, heq, r, hr, hscope⟩
  · rintro (⟨root, hne, hcovers⟩ | hscope)
    · by_cases hfolded : (flags.isRecursive && root.isBelow place) = true
      · rw [Bool.and_eq_true] at hfolded
        refine ⟨place, hself ?_⟩
        rw [hfolded.1]
        exact Location.startsWith_trans hcovers.startsWith
          (Location.startsWith_of_isBelow hfolded.2)
      · obtain ⟨r, hr, hscope⟩ := hcovers
        exact ⟨root, r, by rw [hroots, if_neg hne, if_neg hfolded, hr], hscope⟩
    · exact ⟨place, hself hscope⟩

/-- A root that goes by an addition is told to be folded in. -/
theorem absorbed_of_add {events : List RootEvent}
    (hevents : (s.add place flags).1.events = s.events ++ events) (hroot : s.isRoot other = true)
    (hgone : (s.add place flags).1.isRoot other = false) :
    .absorbed other place.canonical ∈ events := by
  obtain ⟨news, hnews, -, hmirror⟩ := s.tells_add place flags
  obtain ⟨news', hnews', hkinds⟩ := s.events_add place flags
  obtain rfl := List.append_cancel_left (hevents.symm.trans hnews)
  obtain rfl := List.append_cancel_left (hnews.symm.trans hnews')
  by_contra hnot
  have hended : ∀ event ∈ events, event.ended? ≠ some other := by
    intro event hevent hended
    rcases hkinds event hevent with rfl | rfl | ⟨root, rfl, -⟩
    · contradiction
    · contradiction
    · obtain rfl := Option.some.inj hended
      exact hnot hevent
  have hmem := RootEvent.mem_mirrorAll (mem_placeSet_iff.2 hroot) hended
  rw [hmirror, mem_placeSet_iff, hgone] at hmem
  exact Bool.noConfusion hmem

/-- After an addition that is not refused a root elsewhere is as before, or it is folded in. -/
theorem WellFormed.root?_add_or_absorbed (h : s.WellFormed) (hplace : place.canonical = place)
    (hfree : s.recursiveAbove? place = none) (hne : other ≠ place) {events : List RootEvent}
    (hevents : (s.add place flags).1.events = s.events ++ events) :
    (s.add place flags).1.root? other = s.root? other ∨
      s.isRoot other = true ∧ (s.add place flags).1.root? other = none ∧
        .absorbed other place ∈ events := by
  have hother := h.root?_add_of_live hplace flags hfree other
  rw [if_neg hne] at hother
  split_ifs at hother with hfolded
  · cases hroot : s.isRoot other with
    | false => exact .inl (hother.trans (root?_eq_none_of_isRoot hroot).symm)
    | true =>
      have hgone : (s.add place flags).1.isRoot other = false := by
        rw [isRoot, OrderedMap.contains, ← root?, hother]
        rfl
      have htold := absorbed_of_add hevents hroot hgone
      rw [hplace] at htold
      exact .inr ⟨rfl, hother, htold⟩
  · exact .inl hother

/-- **An addition covers what the new root covers, and loses nothing else.** After any operations on
an empty set, an addition that is refused changes nothing, and the root for which it is refused
covers all that the new one would cover. Any other addition leaves covered exactly what roots at
other places have covered before and what a root at the place covers with the new flags. The root
there has the new flags and the volume that was recorded for it before, if any. Each root elsewhere
is as before, or it is gone and told to be folded into the root at the place. -/
theorem run_add_coverage (filters : Filters) (ops : List RootOp) (path : Path) (flags : Flags) :
    let s := (empty filters).run ops
    let place := path.location.canonical
    let t := s.add path.location flags
    (∀ above, t.2 = .covered above → t.1 = s ∧
      ∀ file : Location, file.inScope place flags.isRecursive = true → s.Covers above file) ∧
    (t.2.isLive = true →
      (∀ file : Location, (∃ root, t.1.Covers root file) ↔
        (∃ root, root ≠ place ∧ s.Covers root file) ∨
          file.inScope place flags.isRecursive = true) ∧
      t.1.root? place = some ⟨flags, (s.root? place).bind (·.volume)⟩ ∧
      ∃ events, t.1.events = s.events ++ events ∧ ∀ other, other ≠ place →
        t.1.root? other = s.root? other ∨
          s.isRoot other = true ∧ t.1.root? other = none ∧ .absorbed other place ∈ events) := by
  intro s place t
  have h : s.WellFormed := (wellFormed_empty filters).run ops
  have hplace : place.canonical = place := path.location.canonical_canonical
  have ht : t = s.add place flags := (s.add_canonical path.location flags).symm
  have hlive := h.isLive_add_iff hplace flags
  rw [ht]
  refine ⟨fun above hanswer => ?_, fun hnot => ?_⟩
  · cases habove : s.recursiveAbove? place with
    | none =>
      rw [hanswer, habove] at hlive
      exact absurd (hlive.2 rfl) (by simp [AddOutcome.isLive])
    | some root =>
      rw [h.add_of_recursiveAbove? hplace habove] at hanswer ⊢
      obtain rfl := AddOutcome.covered.inj hanswer
      obtain ⟨hrec, hbelow⟩ := h.recursiveAbove?_eq_some_iff.1 habove
      exact ⟨rfl, fun file hscope => covers_of_isRecursiveRoot hrec (Location.startsWith_trans
        (Location.startsWith_of_inScope hscope) (Location.startsWith_of_isBelow hbelow))⟩
  · have hfree := hlive.1 hnot
    obtain ⟨events, hevents, -⟩ := s.events_add place flags
    refine ⟨fun file => h.exists_covers_add_iff hplace hfree,
      (h.root?_add_of_live hplace flags hfree place).trans (if_pos rfl), events, hevents,
      fun other hne => h.root?_add_or_absorbed hplace hfree hne hevents⟩

/-- The plain root `/a` becomes recursive. It keeps its volume, the plain root `/a/b` is folded into
it, and what this one has covered stays covered. Afterwards `/a/c` is refused. -/
theorem run_add_coverage_folded :
    let upper := Path.ofString "/a"
    let lower := Path.ofString "/a/b"
    let ops : List RootOp :=
      [.add upper .monitor, .add lower .monitor, .recordVolume upper (some "V")]
    let s := (empty Filters.none).run ops
    let t := s.add upper.location .recurse
    let file := (Path.ofString "/a/b/x").location
    t.2 = .flagsUpdated .monitor ∧ s.Covers lower.location file ∧
      (∃ root, t.1.Covers root file) ∧
      t.1.root? upper.location = some ⟨.recurse, some (some "V")⟩ ∧
      (t.1.add (Path.ofString "/a/c").location .monitor).1 = t.1 := by
  intro upper lower ops s t file
  have hanswer : t.2 = .flagsUpdated .monitor := by decide
  have hcovers : s.Covers lower.location file := by decide
  obtain ⟨-, hadded⟩ := run_add_coverage .none ops upper .recurse
  obtain ⟨hcovered, hroot, -⟩ := hadded (by decide)
  obtain ⟨hrefused, -⟩ := run_add_coverage .none (ops ++ [.add upper .recurse])
    (Path.ofString "/a/c") .monitor
  refine ⟨hanswer, hcovers, (hcovered file).2 (.inl ⟨_, by decide, hcovers⟩), ?_, ?_⟩
  · exact hroot.trans (by decide)
  · exact (hrefused upper.location (by decide)).1

end RootSet

end IndexControl
