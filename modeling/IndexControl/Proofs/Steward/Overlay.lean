import IndexControl.Proofs.Roots.Owner
import IndexControl.Proofs.Steward.Settings

/-!
# Roots on demand over the configured ones

Roots on demand lie over the roots that the configured directories ask for: each hides what lies
below its place. They come to lie only where no configured directory is, so that adding the
configured directories anew brings back just what the removal of some of them has uncovered.

## Main definitions

* `Steward.AllPermitted`: the configured directories are in canonical form and may all be indexed.
* `Steward.Hosts`: roots on demand at places that are not configured.
* `Steward.Overlaid`, `Steward.Uncovered`: the configured roots with roots on demand over them, and
  what is left of them when some roots on demand have gone.

## Main results

* `Steward.Overlaid.add`: a root on demand where no root owns the place.
* `Steward.Uncovered.syncRoots`: adding the configured directories anew when some roots on demand
  have gone.
* `Steward.Uncovered.ended_syncRoots`: no root comes to its end then.
-/

namespace IndexControl

namespace Steward

open RootSet

variable {w : Steward} {s s' : RootSet} {onDemand : Location → Prop} {q place : Location}

/-- The configured directories are in canonical form, and none is in a system location. -/
structure AllPermitted (w : Steward) : Prop where
  canonical : w.directories.Canonical
  permitted : ∀ place ∈ w.directories.places, w.isSystemLocation place = false

/-- There are roots on demand at some places, none of which is configured or lies below a recursive
directory. -/
structure Hosts (w : Steward) (onDemand : Location → Prop) (s : RootSet) : Prop where
  wellFormed : s.WellFormed
  onTop : ∀ q, onDemand q → s.flagsAt? q = some .onDemand
  apart : ∀ q, onDemand q → q ∉ w.directories.places
  outside : ∀ q, onDemand q → ∀ above ∈ w.directories.recursivePlaces, q.isBelow above = false

/-- The other roots are those that the configured directories ask for, where no root on demand lies
above them. -/
structure Overlaid (w : Steward) (onDemand : Location → Prop) (s : RootSet) : Prop
    extends Hosts w onDemand s where
  elsewhere : ∀ q, ¬onDemand q → (∀ above, onDemand above → q.isBelow above = false) →
    s.flagsAt? q = w.wanted? q

/-- Only the flags of the roots matter. -/
theorem Overlaid.congr {onDemand' : Location → Prop} (h : w.Overlaid onDemand s)
    (hs' : s'.WellFormed) (hflags : ∀ q, s'.flagsAt? q = s.flagsAt? q)
    (honDemand : ∀ q, onDemand' q ↔ onDemand q) : w.Overlaid onDemand' s' where
  wellFormed := hs'
  onTop q hq := (hflags q).trans (h.onTop q ((honDemand q).1 hq))
  elsewhere q hq hfree := (hflags q).trans (h.elsewhere q (fun honDemand' =>
    hq ((honDemand q).2 honDemand')) fun above habove => hfree above ((honDemand above).2 habove))
  apart q hq := h.apart q ((honDemand q).1 hq)
  outside q hq := h.outside q ((honDemand q).1 hq)

/-! ### The configured places -/

theorem AllPermitted.permitted_single (h : w.AllPermitted) :
    w.permitted w.directories.singlePlaces = w.directories.singlePlaces :=
  List.filter_eq_self.2 fun place hplace => by
    simp [h.permitted place (Directories.mem_places_iff.2 (.inl hplace))]

theorem AllPermitted.permitted_recursive (h : w.AllPermitted) :
    w.permitted w.directories.recursivePlaces = w.directories.recursivePlaces :=
  List.filter_eq_self.2 fun place hplace => by
    simp [h.permitted place (Directories.mem_places_iff.2 (.inr hplace))]

theorem AllPermitted.wanted?_recursive (h : w.AllPermitted)
    (hq : q ∈ w.directories.recursivePlaces) : w.wanted? q = some (w.flagsFor q true) :=
  wanted?_of_mem_recursivePlaces (h.permitted q (Directories.mem_places_iff.2 (.inr hq))) hq

theorem wanted?_of_isBelow (hq : q ∉ w.directories.recursivePlaces) {above : Location}
    (habove : above ∈ w.directories.recursivePlaces) (hbelow : q.isBelow above = true) :
    w.wanted? q = none := by
  have hany : w.directories.recursivePlaces.any q.isBelow = true :=
    List.any_eq_true.2 ⟨above, habove, hbelow⟩
  rw [wanted?, if_neg hq, if_pos hany]
  split <;> rfl

theorem AllPermitted.wanted?_single (h : w.AllPermitted) (hq : q ∈ w.directories.singlePlaces)
    (hfree : ∀ above ∈ w.directories.recursivePlaces, q.isBelow above = false) :
    w.wanted? q = some (w.flagsFor q false) := by
  have hany : ¬w.directories.recursivePlaces.any q.isBelow = true := by
    rw [List.any_eq_true]
    rintro ⟨above, habove, hbelow⟩
    rw [hfree above habove] at hbelow
    exact Bool.noConfusion hbelow
  rw [wanted?, h.permitted q (Directories.mem_places_iff.2 (.inl hq)),
    if_neg (h.canonical.apart q hq), if_neg hany, if_pos hq]
  rfl

theorem wanted?_of_not_configured (hq : q ∉ w.directories.places) : w.wanted? q = none := by
  by_contra hne
  obtain ⟨f, hf⟩ := Option.ne_none_iff_exists'.1 hne
  exact hq (wanted?_eq_some hf).2.1

/-! ### Roots under and beside roots on demand -/

/-- Nothing is a root below a root on demand. -/
theorem Overlaid.flagsAt?_of_isBelow (h : w.Overlaid onDemand s) {above : Location}
    (habove : onDemand above) (hbelow : q.isBelow above = true) : s.flagsAt? q = none := by
  refine h.wellFormed.flagsAt?_eq_none (isRecursiveRoot_iff.2 ⟨_, h.onTop above habove, ?_⟩) hbelow
  decide

/-- A root is there on demand, or it is asked for. -/
theorem Overlaid.wanted?_of_flagsAt? (h : w.Overlaid onDemand s) {f : Flags}
    (hq : s.flagsAt? q = some f) : onDemand q ∨ w.wanted? q = some f := by
  by_cases honDemand : onDemand q
  · exact .inl honDemand
  · refine .inr ((h.elsewhere q honDemand fun above habove => ?_).symm.trans hq)
    rw [Bool.eq_false_iff]
    intro hbelow
    rw [h.flagsAt?_of_isBelow habove hbelow] at hq
    contradiction

/-- A root on demand owns what starts with its place. -/
theorem Overlaid.owner?_of_startsWith (h : w.Overlaid onDemand s) {above : Location}
    (habove : onDemand above) (hstart : q.startsWith above = true) : s.owner? q = some above := by
  have hrec : s.isRecursiveRoot above = true :=
    isRecursiveRoot_iff.2 ⟨_, h.onTop above habove, by decide⟩
  exact h.wellFormed.owner?_eq_some_iff.2 ⟨isRoot_of_isRecursiveRoot hrec,
    (Location.startsWith_iff_eq_or_isBelow.1 hstart).imp_right (⟨hrec, ·⟩)⟩

/-- What a recursive directory covers is owned. -/
theorem Overlaid.isSome_owner?_of_recursive (h : w.Overlaid onDemand s) (hw : w.AllPermitted)
    {above : Location} (habove : above ∈ w.directories.recursivePlaces)
    (hstart : q.startsWith above = true) : (s.owner? q).isSome = true := by
  by_cases hunder : ∃ upper, onDemand upper ∧ above.isBelow upper = true
  · obtain ⟨upper, hupper, hbelow⟩ := hunder
    rw [h.owner?_of_startsWith hupper
      (Location.startsWith_trans hstart (Location.startsWith_of_isBelow hbelow))]
    rfl
  · have hplain : ¬onDemand above := fun honDemand =>
      h.apart above honDemand (Directories.mem_places_iff.2 (.inr habove))
    have hflags : s.flagsAt? above = some (w.flagsFor above true) := by
      rw [h.elsewhere above hplain fun upper hupper => ?_, hw.wanted?_recursive habove]
      rw [Bool.eq_false_iff]
      exact fun hbelow => hunder ⟨upper, hupper, hbelow⟩
    have hrec : s.isRecursiveRoot above = true :=
      isRecursiveRoot_iff.2 ⟨_, hflags, isRecursive_flagsFor ..⟩
    rw [h.wellFormed.owner?_eq_some_iff.2 ⟨isRoot_of_isRecursiveRoot hrec,
      (Location.startsWith_iff_eq_or_isBelow.1 hstart).imp_right (⟨hrec, ·⟩)⟩]
    rfl

/-- Every configured place is owned. -/
theorem Overlaid.isSome_owner?_of_configured (h : w.Overlaid onDemand s) (hw : w.AllPermitted)
    (hq : q ∈ w.directories.places) : (s.owner? q).isSome = true := by
  rcases Directories.mem_places_iff.1 hq with hsingle | hrecursive
  · by_cases hcovered : ∃ above ∈ w.directories.recursivePlaces, q.isBelow above = true
    · obtain ⟨above, habove, hbelow⟩ := hcovered
      exact h.isSome_owner?_of_recursive hw habove (Location.startsWith_of_isBelow hbelow)
    · by_cases hunder : ∃ upper, onDemand upper ∧ q.isBelow upper = true
      · obtain ⟨upper, hupper, hbelow⟩ := hunder
        rw [h.owner?_of_startsWith hupper (Location.startsWith_of_isBelow hbelow)]
        rfl
      · push Not at hcovered hunder
        have hflags : s.flagsAt? q = some (w.flagsFor q false) := by
          rw [h.elsewhere q (fun honDemand => h.apart q honDemand hq)
            fun upper hupper => by simpa using hunder upper hupper]
          exact hw.wanted?_single hsingle fun above habove => by simpa using hcovered above habove
        rw [h.wellFormed.owner?_eq_some_iff.2 ⟨isRoot_iff_flagsAt?.2 ⟨_, hflags⟩, .inl rfl⟩]
        rfl
  · exact h.isSome_owner?_of_recursive hw hrecursive (Location.startsWith_self q)

/-! ### A new root on demand -/

/-- A new root on demand takes the place of those below it. -/
theorem Overlaid.add (h : w.Overlaid onDemand s) (hw : w.AllPermitted)
    (hplace : place.IsCanonical) (hfree : s.owner? place = none) :
    w.Overlaid (fun q => q = place ∨ q.isBelow place = false ∧ onDemand q)
      (s.add place .onDemand).1 := by
  have hflags (q : Location) : (s.add place .onDemand).1.flagsAt? q =
      if q = place then some .onDemand
      else if q.isBelow place then none else s.flagsAt? q := by
    rw [RootSet.flagsAt?, h.wellFormed.root?_add_free hplace hfree (by decide)]
    split_ifs <;> rfl
  refine ⟨⟨h.wellFormed.add hplace.1 .onDemand, ?onTop, ?apart, ?outside⟩, ?elsewhere⟩
  case onTop =>
    rintro q (rfl | ⟨hout, hq⟩)
    · rw [hflags, if_pos rfl]
    · rw [hflags, hout, h.onTop q hq]
      simp
  case elsewhere =>
    intro q hq hunder
    have hout : q.isBelow place = false := hunder place (.inl rfl)
    have hne : q ≠ place := fun heq => hq (.inl heq)
    rw [hflags, if_neg hne, hout]
    refine h.elsewhere q (fun honDemand => hq (.inr ⟨hout, honDemand⟩)) fun above habove => ?_
    rw [Bool.eq_false_iff]
    intro hbelow
    by_cases habove' : above.isBelow place = true
    · rw [Location.isBelow_trans hbelow habove'] at hout
      exact Bool.noConfusion hout
    · rw [hunder above (.inr ⟨by simpa using habove', habove⟩)] at hbelow
      exact Bool.noConfusion hbelow
  case apart =>
    rintro q (rfl | ⟨-, hq⟩)
    · intro hconfigured
      have howned := h.isSome_owner?_of_configured hw hconfigured
      rw [hfree] at howned
      exact Bool.noConfusion howned
    · exact h.apart q hq
  case outside =>
    rintro q (rfl | ⟨-, hq⟩) above habove
    · rw [Bool.eq_false_iff]
      intro hbelow
      have howned := h.isSome_owner?_of_recursive hw habove (Location.startsWith_of_isBelow hbelow)
      rw [hfree] at howned
      exact Bool.noConfusion howned
    · exact h.outside q hq above habove

/-! ### Adding the configured directories anew -/

/-- The other roots are among those that the configured directories ask for: roots on demand have
gone, and the configured roots that they took over are not back yet. -/
structure Uncovered (w : Steward) (onDemand : Location → Prop) (s : RootSet) : Prop
    extends Hosts w onDemand s where
  beside : ∀ q f, s.flagsAt? q = some f → onDemand q ∨ w.wanted? q = some f

/-- What removing some of the roots on demand leaves. -/
theorem Overlaid.uncovered (h : w.Overlaid onDemand s) {places : List Location}
    (hs' : s'.WellFormed)
    (hflags : ∀ q, s'.flagsAt? q = if q ∈ places then none else s.flagsAt? q) :
    w.Uncovered (fun q => onDemand q ∧ q ∉ places) s' where
  wellFormed := hs'
  onTop q hq := by rw [hflags, if_neg hq.2, h.onTop q hq.1]
  beside q f hf := by
    rw [hflags] at hf
    split_ifs at hf with hq
    exact (h.wanted?_of_flagsAt? hf).imp_left (⟨·, hq⟩)
  apart q hq := h.apart q hq.1
  outside q hq := h.outside q hq.1

/-- A recursive root is there on demand, or it is a recursive directory. -/
theorem Uncovered.isRecursiveRoot (h : w.Uncovered onDemand s) (hq : s.isRecursiveRoot q = true) :
    onDemand q ∨ q ∈ w.directories.recursivePlaces := by
  obtain ⟨f, hf, hrec⟩ := isRecursiveRoot_iff.1 hq
  exact (h.beside q f hf).imp_right fun hwanted => (wanted?_eq_some hwanted).2.2 hrec

/-- No root lies below a recursive directory. -/
theorem Uncovered.isRoot_of_isBelow (h : w.Uncovered onDemand s) (hw : w.AllPermitted)
    {above : Location} (habove : above ∈ w.directories.recursivePlaces)
    (hbelow : q.isBelow above = true) : s.isRoot q = false := by
  rw [Bool.eq_false_iff]
  intro hroot
  obtain ⟨f, hf⟩ := isRoot_iff_flagsAt?.1 hroot
  rcases h.beside q f hf with honDemand | hwanted
  · rw [h.outside q honDemand above habove] at hbelow
    exact Bool.noConfusion hbelow
  · have hq : q ∉ w.directories.recursivePlaces := fun hq => by
      rw [hw.canonical.outermost q hq above habove] at hbelow
      exact Bool.noConfusion hbelow
    rw [wanted?_of_isBelow hq habove hbelow] at hwanted
    contradiction

/-- A single directory becomes a root unless a recursive root lies above it: none of the recursive
roots is a single directory, so that none of them becomes plain before. -/
theorem Uncovered.accepts_iff (h : w.Uncovered onDemand s) (hw : w.AllPermitted) :
    s.Accepts w.directories.singlePlaces q ↔
      ∀ above, s.isRecursiveRoot above = true → q.isBelow above = false := by
  have hplain {above : Location} (habove : s.isRecursiveRoot above = true) :
      above ∉ w.directories.singlePlaces := fun hsingle =>
    (h.isRecursiveRoot habove).elim
      (fun honDemand => h.apart above honDemand (Directories.mem_places_iff.2 (.inl hsingle)))
      (hw.canonical.apart above hsingle)
  constructor
  · intro haccepts above habove
    rw [Bool.eq_false_iff]
    exact fun hbelow => hplain habove ((haccepts above habove hbelow).subset List.mem_cons_self)
  · intro hfree above habove hbelow
    rw [hfree above habove] at hbelow
    exact Bool.noConfusion hbelow

open scoped Classical in
/-- What adding the single directories leaves. -/
theorem Uncovered.flagsAt?_addSingles (h : w.Uncovered onDemand s) (hw : w.AllPermitted)
    (q : Location) :
    (w.addSingles s).flagsAt? q =
      if q ∈ w.directories.singlePlaces then
        if ∀ above, s.isRecursiveRoot above = true → q.isBelow above = false then
          some (w.flagsFor q false)
        else none
      else s.flagsAt? q := by
  rw [addSingles, hw.permitted_single, flagsAt?_addEach_plain h.wellFormed
    hw.canonical.single_isCanonical hw.canonical.nodup_single
    (fun place => isRecursive_flagsFor w place false)]
  simp only [h.accepts_iff hw]

/-- Adding the single directories leaves the roots on demand, and no other recursive roots but
recursive directories. -/
theorem Uncovered.isRecursiveRoot_addSingles (h : w.Uncovered onDemand s) (hw : w.AllPermitted)
    (hq : (w.addSingles s).isRecursiveRoot q = true) :
    onDemand q ∨ q ∈ w.directories.recursivePlaces := by
  obtain ⟨f, hf, hrec⟩ := isRecursiveRoot_iff.1 hq
  rw [h.flagsAt?_addSingles hw] at hf
  split_ifs at hf with hsingle hfree
  · obtain rfl := Option.some.inj hf
    rw [isRecursive_flagsFor] at hrec
    exact Bool.noConfusion hrec
  · exact h.isRecursiveRoot (isRecursiveRoot_iff.2 ⟨f, hf, hrec⟩)

theorem Uncovered.flagsAt?_addSingles_of_onDemand (h : w.Uncovered onDemand s)
    (hw : w.AllPermitted) (hq : onDemand q) :
    (w.addSingles s).flagsAt? q = some .onDemand := by
  have hsingle : q ∉ w.directories.singlePlaces := fun hsingle =>
    h.apart q hq (Directories.mem_places_iff.2 (.inl hsingle))
  rw [h.flagsAt?_addSingles hw, if_neg hsingle, h.onTop q hq]

theorem Uncovered.wellFormed_addSingles (h : w.Uncovered onDemand s) (hw : w.AllPermitted) :
    (w.addSingles s).WellFormed :=
  h.wellFormed.addEach fun place hplace =>
    hw.canonical.single_isCanonical place (mem_permitted_iff.1 hplace).1

/-- A recursive directory comes back unless it lies below a root on demand. -/
theorem Uncovered.isNone_recursiveAbove?_iff (h : w.Uncovered onDemand s) (hw : w.AllPermitted)
    (hq : q ∈ w.directories.recursivePlaces) :
    ((w.addSingles s).recursiveAbove? q).isNone = true ↔
      ∀ above, onDemand above → q.isBelow above = false := by
  rw [← Option.not_isSome, Bool.not_eq_true', ← Bool.not_eq_true,
    (h.wellFormed_addSingles hw).recursiveAbove?_isSome_iff]
  constructor
  · intro hnone above habove
    rw [Bool.eq_false_iff]
    exact fun hbelow => hnone ⟨above, isRecursiveRoot_iff.2
      ⟨_, h.flagsAt?_addSingles_of_onDemand hw habove, by decide⟩, hbelow⟩
  · rintro hfree ⟨above, habove, hbelow⟩
    have hout : q.isBelow above = false :=
      (h.isRecursiveRoot_addSingles hw habove).elim (hfree above)
        (hw.canonical.outermost q hq above)
    rw [hout] at hbelow
    exact Bool.noConfusion hbelow

theorem Uncovered.flagsAt?_syncRoots (h : w.Uncovered onDemand s) (hw : w.AllPermitted)
    (q : Location) :
    (w.syncRoots s).flagsAt? q =
      if q ∈ w.directories.recursivePlaces ∧
          ((w.addSingles s).recursiveAbove? q).isNone = true then
        some (w.flagsFor q true)
      else if w.directories.recursivePlaces.any fun place =>
          q.isBelow place && ((w.addSingles s).recursiveAbove? place).isNone then none
      else (w.addSingles s).flagsAt? q := by
  rw [syncRoots_eq, hw.permitted_recursive]
  exact flagsAt?_addEach_outermost (h.wellFormed_addSingles hw) hw.canonical.recursive_isCanonical
    (fun place => isRecursive_flagsFor w place true) hw.canonical.outermost q

/-- Adding the configured directories anew leaves the roots on demand. -/
theorem Uncovered.flagsAt?_syncRoots_of_onDemand (h : w.Uncovered onDemand s)
    (hw : w.AllPermitted) (hq : onDemand q) : (w.syncRoots s).flagsAt? q = some .onDemand := by
  have hrecursive : q ∉ w.directories.recursivePlaces := fun hrecursive =>
    h.apart q hq (Directories.mem_places_iff.2 (.inr hrecursive))
  have hany : (w.directories.recursivePlaces.any fun place =>
      q.isBelow place && ((w.addSingles s).recursiveAbove? place).isNone) = false :=
    List.any_eq_false.2 fun above habove => by simp [h.outside q hq above habove]
  rw [h.flagsAt?_syncRoots hw, if_neg fun hmem => hrecursive hmem.1, hany,
    h.flagsAt?_addSingles_of_onDemand hw hq]
  rfl

/-- Away from the roots on demand, adding the configured directories anew gives the roots that
they ask for. -/
theorem Uncovered.flagsAt?_syncRoots_elsewhere (h : w.Uncovered onDemand s) (hw : w.AllPermitted)
    (hq : ¬onDemand q) (hfree : ∀ above, onDemand above → q.isBelow above = false) :
    (w.syncRoots s).flagsAt? q = w.wanted? q := by
  rw [h.flagsAt?_syncRoots hw]
  by_cases hrecursive : q ∈ w.directories.recursivePlaces
  · rw [if_pos ⟨hrecursive, (h.isNone_recursiveAbove?_iff hw hrecursive).2 hfree⟩,
      hw.wanted?_recursive hrecursive]
  rw [if_neg fun hmem => hrecursive hmem.1]
  by_cases hcovered : ∃ above ∈ w.directories.recursivePlaces, q.isBelow above = true
  · obtain ⟨above, habove, hbelow⟩ := hcovered
    have hback : ((w.addSingles s).recursiveAbove? above).isNone = true := by
      refine (h.isNone_recursiveAbove?_iff hw habove).2 fun upper hupper => ?_
      rw [Bool.eq_false_iff]
      intro hbelow'
      have hout := hfree upper hupper
      rw [Location.isBelow_trans hbelow hbelow'] at hout
      exact Bool.noConfusion hout
    rw [if_pos (List.any_eq_true.2 ⟨above, habove, by rw [hbelow, hback]; rfl⟩),
      wanted?_of_isBelow hrecursive habove hbelow]
  · have hout : ∀ above ∈ w.directories.recursivePlaces, q.isBelow above = false := by
      simpa using hcovered
    have hany : (w.directories.recursivePlaces.any fun place =>
        q.isBelow place && ((w.addSingles s).recursiveAbove? place).isNone) = false :=
      List.any_eq_false.2 fun above habove => by simp [hout above habove]
    rw [hany, if_neg Bool.false_ne_true, h.flagsAt?_addSingles hw]
    by_cases hsingle : q ∈ w.directories.singlePlaces
    · rw [if_pos hsingle, hw.wanted?_single hsingle hout, if_pos fun above habove =>
        (h.isRecursiveRoot habove).elim (hfree above) (hout above)]
    · have hplace : q ∉ w.directories.places := fun hmem =>
        (Directories.mem_places_iff.1 hmem).elim hsingle hrecursive
      rw [if_neg hsingle, wanted?_of_not_configured hplace]
      by_contra hne
      obtain ⟨f, hf⟩ := Option.ne_none_iff_exists'.1 hne
      rcases h.beside q f hf with honDemand | hwanted
      · exact hq honDemand
      · exact hplace (wanted?_eq_some hwanted).2.1

/-- Adding the configured directories anew brings back what was uncovered. -/
theorem Uncovered.syncRoots (h : w.Uncovered onDemand s) (hw : w.AllPermitted) :
    w.Overlaid onDemand (w.syncRoots s) where
  wellFormed := by
    rw [syncRoots_eq]
    exact (h.wellFormed_addSingles hw).addEach fun place hplace =>
      hw.canonical.recursive_isCanonical place (mem_permitted_iff.1 hplace).1
  onTop _ hq := h.flagsAt?_syncRoots_of_onDemand hw hq
  elsewhere _ hq hfree := h.flagsAt?_syncRoots_elsewhere hw hq hfree
  apart := h.apart
  outside := h.outside

/-- Adding the configured directories anew ends no root that is there. -/
theorem Uncovered.ended_syncRoots (h : w.Uncovered onDemand s) (hw : w.AllPermitted)
    {event : RootEvent} (hevent : event ∈ (w.syncRoots s).events)
    (hq : event.ended? = some q) : event ∈ s.events ∨ s.isRoot q = false := by
  rw [syncRoots_eq] at hevent
  rcases ended_addEach hevent hq with hsingle | ⟨above, habove, -, hbelow⟩
  · refine (ended_addEach hsingle hq).imp_right ?_
    rintro ⟨above, -, hrec, -⟩
    rw [isRecursive_flagsFor] at hrec
    exact Bool.noConfusion hrec
  · obtain ⟨habove, -⟩ := mem_permitted_iff.1 habove
    rw [(hw.canonical.recursive_isCanonical above habove).2] at hbelow
    exact .inr (h.isRoot_of_isBelow hw habove hbelow)

end Steward

end IndexControl
