import IndexControl.Proofs.Engine.Recovery

/-!
# Where watches go, and where they are lost

A watch on an on-demand root goes where the root goes: it stays, it is taken over by the root into
which its root is folded, or it is suspended until its root comes back. There are two ways to lose
one. A suspended watch is lost where others have asked for the root again and it is folded into
another one again, since their record is suspended in its place. And a watch on an on-demand root is
lost where the root comes to be configured by the move by which it is folded into another one.

## Main definitions

* `Engine.Tracks`: where the watches of a requester are after a move.
* `Engine.Bears`: the requester is recorded where it was, before what is queued has been followed.

## Main results

* `Engine.Steady.heldAt_dispatch`, `Engine.Bears.waitsAt_dispatch`: where following the roots moves a
  record.
* `Engine.Bears.tracks_restoreAfter`: the two parts of a move together.
* `Engine.run_watches_tracked`: where the watches of a requester are after any move.
* `Engine.watch_lost_after_remount`: a suspended watch that is lost.
-/

namespace IndexControl

namespace Engine

open RootSet

variable {e e' : Engine} {requester : Requester} {root place : Location}

/-- Where the watches of a requester are after a move of which the crawler is told by some
notifications.

Where the requester is recorded at an on-demand root that is not removed it stays recorded there,
unless the root is folded into another one. Then it is recorded there or waits for the return of the
root, or the place of the root is configured by then, or that other root belongs to a removable volume
and is folded into a third one.

Where the requester waits it goes on waiting, or its root is back with it, unless there was an
on-demand root at the place for others and it is folded into another one. -/
structure Tracks (e e' : Engine) (news : List RootEvent) (requester : Requester) : Prop where
  crawled : e'.crawled = e.crawled ++ news
  held : ∀ root, e.watches.isOnDemand root = true → e.watches.HeldAt root requester →
    (∀ flags, .removed root flags ∉ news) →
    e'.watches.HeldAt root requester ∨ ∃ into, .absorbed root into ∈ news ∧
      (e'.watches.HeldAt into requester ∨ e'.watches.WaitsAt root requester ∨
        root ∈ e'.steward.directories.places ∨
        into ∈ e'.steward.removablePlaces.map Location.canonical ∧
          ∃ above, .absorbed into above ∈ news)
  waits : ∀ place, e.watches.WaitsAt place requester →
    e'.watches.WaitsAt place requester ∨ e'.watches.HeldAt place requester ∨
      e.watches.isOnDemand place = true ∧ ¬e.watches.HeldAt place requester ∧
        ∃ into, .absorbed place into ∈ news

theorem tracks_of_undisturbed (h : e.Undisturbed e') : e.Tracks e' [] requester where
  crawled := by rw [h.crawled, List.append_nil]
  held root _ hheld _ := .inl (by rwa [h.watches])
  waits place hwaits := .inl (by rwa [h.watches])

theorem Tracks.undisturbed {e₁ : Engine} {news : List RootEvent}
    (h : e.Tracks e₁ news requester) (hsame : e₁.Undisturbed e') : e.Tracks e' news requester where
  crawled := hsame.crawled.trans h.crawled
  held := by
    rw [hsame.watches, hsame.steward]
    exact h.held
  waits := by
    rw [hsame.watches]
    exact h.waits

/-! ### Before what is queued has been followed -/

/-- The requester is recorded where it was, and no root is on demand anew. One that is on demand no
longer and still has a record is configured now. -/
structure Bears (e e' : Engine) (requester : Requester) : Prop where
  held : ∀ q, e.watches.HeldAt q requester → e'.watches.HeldAt q requester
  waits : ∀ q, e.watches.WaitsAt q requester → e'.watches.WaitsAt q requester
  onDemand : ∀ q, e'.watches.isOnDemand q = true → e.watches.isOnDemand q = true
  static : ∀ q, e.watches.isOnDemand q = true → e'.watches.records.contains q = true →
    e'.watches.isOnDemand q = false → q ∈ e'.steward.directories.places

theorem bears_of_watches (h : e'.watches = e.watches) : e.Bears e' requester where
  held q hq := by rwa [h]
  waits q hq := by rwa [h]
  onDemand q hq := by rwa [h] at hq
  static q hq _ hnot := by
    rw [h, hq] at hnot
    contradiction

/-- The engine with the roots of a requester gone, before what is queued has been followed. -/
def releasing (e : Engine) (requester : Requester) : Engine :=
  { e with
    watches := (e.watches.release e.roots requester).1
    roots := (e.watches.release e.roots requester).2.1 }

theorem bears_releasing {other : Requester} (hne : requester ≠ other) (e : Engine) :
    e.Bears (e.releasing other) requester where
  held _ hq := hq.release hne e.roots
  waits _ hq := hq.release hne e.roots
  onDemand _ hq := (Watches.isOnDemand_release (s := e.roots).1 hq).1
  static q hq hrecorded hnot := by
    obtain ⟨record, hfind⟩ := OrderedMap.contains_iff.1 hrecorded
    obtain ⟨before, hbefore, hshared, -⟩ := Watches.find?_release_eq_some_iff (s := e.roots).1 hfind
    have hkept : q ∉ e.watches.freed other := fun hmem => by
      obtain ⟨r, hr, hheld, -⟩ := Watches.mem_freed_iff.1 hmem
      obtain rfl := Option.some.inj (hbefore.symm.trans hr)
      exact Bool.noConfusion (hshared.symm.trans hheld)
    have honDemand := Watches.isOnDemand_release (s := e.roots).2 ⟨hq, hkept⟩
    exact Bool.noConfusion (honDemand.symm.trans hnot)

theorem bears_followed (e : Engine) (change : SettingsChange) :
    e.Bears (e.followed change) requester where
  held q hq := by
    simp only [followed]
    split
    · exact Watches.heldAt_markStatics.2 hq
    · exact hq
  waits q hq := by
    rw [Watches.WaitsAt, suspended_followed]
    exact hq
  onDemand _ hq := (isOnDemand_followed hq).1
  static q hq _ hnot := by
    simp only [followed] at hnot ⊢
    split at hnot
    · by_contra hplaces
      rw [if_pos ‹_›, ← Steward.map_configured] at hplaces
      have honDemand := Watches.isOnDemand_markStatics.2 ⟨hq, hplaces⟩
      exact Bool.noConfusion (honDemand.symm.trans hnot)
    · exact Bool.noConfusion (hq.symm.trans hnot)

/-! ### Following what is queued -/

theorem Bears.waitsAt_dispatch (h : e.Bears e' requester)
    (hwaits : e.watches.WaitsAt place requester) :
    e'.dispatch.watches.WaitsAt place requester ∨
      e.watches.isOnDemand place = true ∧ ¬e.watches.HeldAt place requester ∧
        ∃ into, .absorbed place into ∈ e'.roots.events := by
  refine ((h.waits place hwaits).followAll e'.roots.events).imp_right ?_
  rintro ⟨honDemand, hnot, hevent⟩
  exact ⟨h.onDemand place honDemand, fun hheld => hnot (h.held place hheld), hevent⟩

/-- Where the record of a watched root goes when the steward has changed the roots. It is merged only
into that of a removable volume, as other roots above a watched one are configured directories. -/
theorem Steady.heldAt_dispatch (h : e.Steady) (hbears : e.Bears e' requester) {r : RootSet}
    (hchanges : Changes Location.IsSpelled e.roots e'.roots)
    (hcleared : Queues (fun event => event.into? = none) e.roots r)
    (hfolds : e'.steward.Folds r e'.roots)
    (hapart : ∀ q, e'.watches.isOnDemand q = true → q ∈ e.steward.directories.singlePlaces →
      q ∉ e'.steward.directories.recursivePlaces)
    (honDemand : e.watches.isOnDemand root = true) (hheld : e.watches.HeldAt root requester)
    (hstays : ∀ flags, .removed root flags ∉ e'.roots.events) :
    e'.dispatch.watches.HeldAt root requester ∨ ∃ into, .absorbed root into ∈ e'.roots.events ∧
      (e'.dispatch.watches.WaitsAt root requester ∨ root ∈ e'.steward.directories.places ∨
        into ∈ e'.steward.removablePlaces.map Location.canonical ∧
          (e'.dispatch.watches.HeldAt into requester ∨
            ∃ above, .absorbed into above ∈ e'.roots.events)) := by
  obtain ⟨cleared, hcleared, hnone⟩ := hcleared
  rw [h.quiet, List.nil_append] at hcleared
  obtain ⟨later, hlater, hinto⟩ := hfolds.events
  rw [hcleared] at hlater
  have hremoved := RootEvent.removed?_ne_of_not_mem hstays
  have hkept : ∀ event ∈ cleared, event.ended? ≠ some root := by
    intro event hevent hended
    rcases RootEvent.ended?_eq_some_iff.1 hended with hgone | ⟨into, rfl⟩
    · exact hremoved event (hlater ▸ List.mem_append_left later hevent) hgone
    · exact Option.some_ne_none _ (hnone _ hevent)
  let w := e'.watches.followAll cleared
  have hw : e'.dispatch.watches = w.followAll later := by
    rw [show e'.dispatch.watches = e'.watches.followAll e'.roots.events from rfl, hlater]
    exact List.foldl_append
  have hheld' : w.HeldAt root requester := (hbears.held root hheld).stays hkept
  have hmem {event : RootEvent} (hevent : event ∈ later) : event ∈ e'.roots.events :=
    hlater ▸ List.mem_append_right cleared hevent
  rw [hw]
  refine (hheld'.followAll fun event hevent => hremoved event (hmem hevent)).imp_right ?_
  rintro ⟨into, hevent, hwaits | hstatic | ⟨hdemanded, hended⟩⟩
  · exact ⟨into, hmem hevent, .inl hwaits⟩
  · refine ⟨into, hmem hevent, .inr (.inl ?_)⟩
    exact hbears.static root honDemand (hbears.held root hheld).contains
      ((Watches.isOnDemand_followAll_of_stays hkept).symm.trans hstatic)
  · have hinto' : e'.watches.isOnDemand into = true := Watches.isOnDemand_of_followAll hdemanded
    have hsingle := h.mem_singlePlaces hheld.contains (hbears.onDemand into hinto')
      (hchanges.isBelow_of_absorbed h.quiet (hmem hevent))
    obtain ⟨hremovable, hspared⟩ :=
      (hinto root into hevent).resolve_left (hapart into hinto' hsingle)
    refine ⟨into, hmem hevent, .inr (.inr ⟨hremovable, hended.imp_right ?_⟩)⟩
    rintro ⟨event, hevent, hended⟩
    rcases RootEvent.ended?_eq_some_iff.1 hended with hgone | ⟨above, rfl⟩
    · rw [hspared event hevent] at hgone
      contradiction
    · exact ⟨above, hmem hevent⟩

/-! ### Two parts of a move -/

/-- What is queued is followed first, and then roots may be brought back. -/
theorem Bears.tracks_restoreAfter {e₁ : Engine} (h : e.Bears e' requester)
    (hcrawled : e'.crawled = e.crawled) (hsame : e'.dispatch.Undisturbed e₁) (h₁ : e₁.Steady)
    (hfirst : ∀ root, e.watches.isOnDemand root = true → e.watches.HeldAt root requester →
      (∀ flags, .removed root flags ∉ e'.roots.events) →
      e'.dispatch.watches.HeldAt root requester ∨ ∃ into, .absorbed root into ∈ e'.roots.events ∧
        (e'.dispatch.watches.WaitsAt root requester ∨ root ∈ e'.steward.directories.places ∨
          into ∈ e'.steward.removablePlaces.map Location.canonical ∧
            (e'.dispatch.watches.HeldAt into requester ∨
              ∃ above, .absorbed into above ∈ e'.roots.events)))
    (removed : List Location) : ∃ news, e.Tracks (e₁.restoreAfter removed) news requester := by
  obtain ⟨news, hback⟩ := h₁.recovers removed requester
  have hsteward : (e₁.restoreAfter removed).steward = e'.steward := hback.steward.trans hsame.steward
  have hgone {q : Location} {into : Location} (hevent : .absorbed q into ∈ e'.roots.events) :
      ¬e₁.watches.records.contains q = true := fun hrecorded => by
    rw [hsame.watches] at hrecorded
    exact (Watches.contains_followAll.1 hrecorded).2 _ hevent rfl
  have hkept {q : Location} (hrecorded : e₁.watches.records.contains q = true) :
      e'.watches.records.contains q = true ∧
        ∀ event ∈ e'.roots.events, event.ended? ≠ some q := by
    rw [hsame.watches] at hrecorded
    exact Watches.contains_followAll.1 hrecorded
  refine ⟨e'.roots.events ++ news, ?_, fun root honDemand hheld hstays => ?_, fun place hwaits => ?_⟩
  · rw [hback.crawled, hsame.crawled, crawled_dispatch, told, hcrawled, List.append_assoc]
  · have hearly : ∀ flags, .removed root flags ∉ e'.roots.events := fun flags hevent =>
      hstays flags (List.mem_append_left news hevent)
    rw [hsteward]
    rcases hfirst root honDemand hheld hearly with hheld₁ | ⟨into, hevent, hcases⟩
    · rw [← hsame.watches] at hheld₁
      refine (hback.held root hheld₁).imp_right ?_
      rintro ⟨into, hevent, hinto | hwaits | hstatic | hplaces⟩
      · exact ⟨into, List.mem_append_right _ hevent, .inl hinto⟩
      · exact ⟨into, List.mem_append_right _ hevent, .inr (.inl hwaits)⟩
      · obtain ⟨hrecorded, hlasting⟩ := hkept hheld₁.contains
        rw [hsame.watches] at hstatic
        refine ⟨into, List.mem_append_right _ hevent, .inr (.inr (.inl ?_))⟩
        exact h.static root honDemand hrecorded
          ((Watches.isOnDemand_followAll_of_stays hlasting).symm.trans hstatic)
      · rw [hsame.steward] at hplaces
        exact ⟨into, List.mem_append_right _ hevent, .inr (.inr (.inl hplaces))⟩
    · have hevent' : .absorbed root into ∈ e'.roots.events ++ news := List.mem_append_left _ hevent
      rcases hcases with hwaits₁ | hplaces | ⟨hremovable, hinto₁ | ⟨above, habove⟩⟩
      · rw [← hsame.watches] at hwaits₁
        rcases hback.waits root hwaits₁ with hwaits | hheld₂ | ⟨hdemanded, -⟩
        · exact .inr ⟨into, hevent', .inr (.inl hwaits)⟩
        · exact .inl hheld₂
        · exact absurd (Watches.contains_of_isOnDemand hdemanded) (hgone hevent)
      · exact .inr ⟨into, hevent', .inr (.inr (.inl hplaces))⟩
      · rw [← hsame.watches] at hinto₁
        rcases hback.held into hinto₁ with hinto₂ | ⟨above, habove, -⟩
        · exact .inr ⟨into, hevent', .inl hinto₂⟩
        · exact .inr ⟨into, hevent', .inr (.inr (.inr
            ⟨hremovable, above, List.mem_append_right _ habove⟩))⟩
      · exact .inr ⟨into, hevent', .inr (.inr (.inr
          ⟨hremovable, above, List.mem_append_left _ habove⟩))⟩
  · rcases h.waitsAt_dispatch hwaits with hwaits₁ | ⟨hdemanded, hnot, into, hevent⟩
    · rw [← hsame.watches] at hwaits₁
      refine (hback.waits place hwaits₁).imp_right (Or.imp_right ?_)
      rintro ⟨hdemanded, hnot, into, hevent⟩
      obtain ⟨-, hlasting⟩ := hkept (Watches.contains_of_isOnDemand hdemanded)
      rw [hsame.watches] at hdemanded hnot
      refine ⟨h.onDemand place (Watches.isOnDemand_of_followAll hdemanded), fun hheld => ?_,
        into, List.mem_append_right _ hevent⟩
      exact hnot ((h.held place hheld).stays hlasting)
    · exact .inr (.inr ⟨hdemanded, hnot, into, List.mem_append_left _ hevent⟩)

/-! ### Moves -/

/-- A request moves the records of roots below its target to the root there. -/
theorem Steady.tracks_handleProbed (h : e.Steady) (number : Nat) {p : ProbedRequest}
    (hp : p.IsGenuine) (requester : Requester) :
    ∃ news, e.Tracks (e.handleProbed number (.ok p)) news requester := by
  suffices happlied : ∃ news, e.Tracks (e.applyProbed p).1.dispatch news requester by
    obtain ⟨news, htracks⟩ := happlied
    exact ⟨news, htracks.undisturbed ((sameView_emit _ rfl).undisturbed rfl)⟩
  rcases e.applyProbed_cases p with heq | ⟨a, happly, hholdings, hcrawled⟩
  · rw [heq]
    exact ⟨[], tracks_of_undisturbed (undisturbed_dispatch h.quiet)⟩
  simp only [holdings, Prod.mk.injEq] at hholdings
  obtain ⟨-, hroots, hwatches⟩ := hholdings
  have hfollow : (e.applyProbed p).1.dispatch.watches = a.watches.followAll a.roots.events := by
    rw [← hroots, ← hwatches]
    rfl
  have hcreated {root into : Location} (hevent : .absorbed root into ∈ a.roots.events) :
      into = p.place ∧ ∀ event ∈ a.roots.events, event.ended? ≠ some p.place := by
    obtain ⟨hinto, houtcome⟩ := Watches.absorbed_of_apply h.quiet hp.isCanonical happly hevent
    exact ⟨hinto, Watches.ended?_ne_of_apply h.quiet hp.isCanonical happly houtcome⟩
  refine ⟨a.roots.events, ?_, fun root honDemand hheld hstays => ?_, fun place hwaits => ?_⟩
  · rw [crawled_dispatch, told, hcrawled, hroots]
  · rw [hfollow]
    refine ((hheld.apply happly).followAll
      (RootEvent.removed?_ne_of_not_mem hstays)).imp_right ?_
    rintro ⟨into, hevent, hwaits | hstatic | ⟨-, hlater⟩⟩
    · exact ⟨into, hevent, .inr (.inl hwaits)⟩
    · exact Bool.noConfusion ((Watches.isOnDemand_apply happly honDemand).symm.trans hstatic)
    · obtain ⟨rfl, hlasting⟩ := hcreated hevent
      refine ⟨p.place, hevent, .inl (hlater.resolve_right ?_)⟩
      rintro ⟨event, hmem, hended⟩
      exact hlasting event hmem hended
  · rw [hfollow]
    have hwaits' : a.watches.WaitsAt place requester := by
      rwa [Watches.WaitsAt, Watches.suspended_apply happly]
    refine (hwaits'.followAll a.roots.events).imp_right fun hlost => .inr ?_
    obtain ⟨honDemand, hnot, into, hevent⟩ := hlost
    refine ⟨(Watches.isOnDemand_of_apply happly honDemand).resolve_right ?_,
      fun hheld => hnot (hheld.apply happly), into, hevent⟩
    rintro ⟨rfl, -⟩
    exact (hcreated hevent).2 _ hevent rfl

theorem Steady.tracks_handleVolume (h : e.Steady) (event : VolumeEvent) (requester : Requester) :
    ∃ news, e.Tracks (e.handleVolume event) news requester := by
  let e' : Engine := { e with
    steward := (e.steward.followVolume e.roots event).1
    roots := (e.steward.followVolume e.roots event).2 }
  have hbears : e.Bears e' requester := bears_of_watches rfl
  have hdirectories : e'.steward.directories = e.steward.directories :=
    Steward.directories_followVolume e.roots event
  refine hbears.tracks_restoreAfter rfl ((SameView.refl _).undisturbed rfl) (h.handleVolume event)
    (fun root honDemand hheld hstays => ?_) []
  refine h.heldAt_dispatch hbears
    (Steward.changes_followVolume (fun _ _ _ hplace => hplace.isSpelled) e.roots) (.refl e.roots)
    (Steward.folds_followVolume h.canonical h.sound.wellFormed event) (fun q _ hq => ?_)
    honDemand hheld hstays
  rw [hdirectories]
  exact h.canonical.apart q hq

theorem Steady.tracks_handleRelease (h : e.Steady) (number : Nat) {other : Requester}
    (hne : requester ≠ other) : ∃ news, e.Tracks (e.handleRelease number other) news requester := by
  have hbears : e.Bears (e.releasing other) requester := bears_releasing hne e
  refine Exists.imp (fun news htracks => ?_) (hbears.tracks_restoreAfter rfl
    ((SameView.refl _).undisturbed rfl) (h.letGo other) (fun root honDemand hheld hstays => ?_)
    (e.watches.release e.roots other).2.2)
  · exact htracks.undisturbed ((sameView_emit _ rfl).undisturbed rfl)
  · refine .inl ((hbears.held root hheld).stays fun event hevent hended => ?_)
    obtain ⟨events, hevents, hnone⟩ := queues_removeEach e.roots (e.watches.freed other)
    rcases RootEvent.ended?_eq_some_iff.1 hended with hremoved | ⟨into, rfl⟩
    · exact RootEvent.removed?_ne_of_not_mem hstays event hevent hremoved
    · rw [h.quiet, List.nil_append] at hevents
      have hmem : .absorbed root into ∈ events := hevents ▸ hevent
      exact Option.some_ne_none into (hnone _ hmem)

theorem Steady.tracks_adopt (h : e.Steady) (settings : Settings) (requester : Requester) :
    ∃ news, e.Tracks (e.adopt settings) news requester := by
  rw [Engine.adopt]
  split
  · exact ⟨[], tracks_of_undisturbed ((SameView.refl e).undisturbed rfl)⟩
  · next change hchange =>
    let e₀ : Engine := { e with settings }
    have h₀ : e₀.Steady := ⟨⟨h.sound.wellFormed, h.sound.mounts, h.sound.attached⟩, h.quiet,
      h.canonical, h.plain⟩
    have hbears : e₀.Bears (e₀.followed change) requester := bears_followed e₀ change
    have hapart (q : Location) (hdemanded : (e₀.followed change).watches.isOnDemand q = true)
        (hq : q ∈ e₀.steward.directories.singlePlaces) :
        q ∉ (e₀.followed change).steward.directories.recursivePlaces := by
      cases htouched : change.touchesDirectories with
      | true =>
        exact fun hrec => (isOnDemand_followed hdemanded).2 htouched
          (Directories.mem_places_iff.2 (.inr hrec))
      | false =>
        rw [steward_followed, Steward.directories_applySettings _ _ htouched]
        exact h₀.canonical.apart q hq
    refine Exists.imp (fun news htracks => ?_) (hbears.tracks_restoreAfter
      (crawled_followed e₀ change) (e₀.undisturbed_applied change) (h₀.applied change)
      (fun root honDemand hheld hstays => ?_) (e₀.removedBy change))
    · have hafter := htracks.undisturbed (e₀.undisturbed_applyChange change)
      exact ⟨hafter.crawled, hafter.held, hafter.waits⟩
    · refine h₀.heldAt_dispatch hbears ?_
        (Steward.queues_cleared h₀.canonical e₀.roots settings change) ?_ hapart honDemand hheld
        hstays
      · rw [roots_followed]
        exact Steward.changes_applySettings (fun _ _ hplace => hplace.isSpelled)
          fun _ _ place hplace =>
            Steward.removablePlaces_of_mounts h₀.sound.mounts place hplace.1
      · rw [roots_followed, steward_followed]
        exact Steward.folds_applySettings h₀.canonical e₀.roots settings change

/-- Every move but the end of the requester keeps track of its watches. -/
theorem Steady.tracks_step (h : e.Steady) {move : EngineMove} (hmove : move.IsGenuine)
    (hlives : ∀ number, move ≠ .handle (.call number (.release requester))) :
    ∃ news, e.Tracks (e.step move) news requester := by
  rcases move.kinds with hidle | ⟨number, other, rfl⟩ | ⟨number, p, rfl⟩ | ⟨settings, rfl⟩ |
    ⟨event, rfl⟩
  · exact ⟨[], tracks_of_undisturbed (undisturbed_step h.quiet hidle)⟩
  · exact h.tracks_handleRelease number fun heq => hlives number (heq ▸ rfl)
  · exact h.tracks_handleProbed number hmove requester
  · exact h.tracks_adopt settings requester
  · exact h.tracks_handleVolume event requester

/-- **Watches follow their roots, and there are two ways to lose one.** After the start and any moves,
take a move that does not release a requester. Where the requester is recorded at an on-demand root
that the crawler is not told has been removed, it is recorded there afterwards, or the root was folded
into another one and the requester is recorded there or waits for the root to come back; a watch is
lost only where the place of the root is configured by then, or where the other root, of a removable
volume, was folded into a third one by the same move. Where the requester waits for a suspended root,
it goes on waiting or is recorded at the root, which has come back; it is lost only where there was an
on-demand root at the place again that was not held for it and that was folded into another one. -/
theorem run_watches_tracked (buffered settings : Settings) (environment : Environment)
    (systemLocations : List Location) (disk : Disk) {moves : List EngineMove}
    (hmoves : ∀ move ∈ moves, move.IsGenuine) {move : EngineMove} (hmove : move.IsGenuine)
    {requester : Requester}
    (hlives : ∀ number, move ≠ .handle (.call number (.release requester))) :
    let e := (new buffered settings environment systemLocations disk).start.run moves
    ∃ news, e.Tracks (e.step move) news requester :=
  (steady_run buffered settings environment systemLocations disk hmoves).tracks_step hmove hlives

/-- The root of `x` at `/a/b` is folded into the configured directory `/a`, and `x` waits for it. -/
theorem run_watches_tracked_suspended :
    let nowhere : Environment := ⟨fun _ => none, none, fun _ => none, fun _ => false⟩
    let settings : Settings :=
      { Settings.default with singleDirectories := [], recursiveDirectories := [] }
    let lower := (Path.ofString "/a/b").location
    let attributes := Attributes.empty.setFile lower (.known ⟨.directory, none, none, false⟩)
    let ask : EngineMove := .handle (.probed 1
      (IndexRequest.probe attributes false (.directory "/a/b" (some "x"))))
    let cover : EngineMove := .adopt { settings with recursiveDirectories := ["/a"] }
    let e := (new settings settings nowhere [] ⟨.empty⟩).start.run [ask]
    e.watches.isOnDemand lower = true ∧ (e.step cover).watches.suspended.keys = [lower] ∧
      ∃ news, e.Tracks (e.step cover) news "x" := by
  intro nowhere settings lower attributes ask cover e
  have hmoves : ∀ move ∈ [ask], move.IsGenuine :=
    List.forall_mem_singleton.2 (EngineMove.isGenuine_probed ..)
  have hcover : cover.IsGenuine := trivial
  exact ⟨by decide, by decide, run_watches_tracked settings settings nowhere [] ⟨.empty⟩ hmoves
    hcover fun number heq => EngineMove.noConfusion heq⟩

/-- A suspended watch is lost: `x` waits for the root `/m/a/b`, which the configured directory `/m/a`
has covered. While the volume is away `y` asks for the same root. When the volume is mounted again
that root is folded into the configured directory too, and `y` waits where `x` did. -/
theorem watch_lost_after_remount :
    let nowhere : Environment := ⟨fun _ => none, none, fun _ => none, fun _ => false⟩
    let settings : Settings :=
      { Settings.default with singleDirectories := [], recursiveDirectories := [] }
    let place := (Path.ofString "/m/a/b").location
    let attributes := Attributes.empty.setFile place (.known ⟨.directory, none, none, false⟩)
    let request (requester : Requester) : IndexRequest := .directory "/m/a/b" (some requester)
    let mounted : EngineMove := .handle (.volume (.mounted ⟨Path.ofString "/m", none, false⟩))
    let e := (new settings settings nowhere [] ⟨.empty⟩).start.run [mounted,
      .handle (.call 2 (.index (request "x"))),
      .handle (.probed 2 ((request "x").probe attributes false)),
      .adopt { settings with recursiveDirectories := ["/m/a"] },
      .handle (.volume (.unmounted (Path.ofString "/m"))),
      .handle (.call 5 (.index (request "y"))),
      .handle (.probed 5 ((request "y").probe attributes false))]
    let waiting (e : Engine) := (e.watches.suspended.find? place).map (·.counts.keys)
    waiting e = some ["x"] ∧ waiting (e.step mounted) = some ["y"] ∧
      (e.step mounted).watches.records.keys = [] := by
  decide

end Engine

end IndexControl
