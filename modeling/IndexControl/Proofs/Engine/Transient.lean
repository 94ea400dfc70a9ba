import IndexControl.Proofs.Engine.Exposure
import IndexControl.Proofs.Engine.Lifetime
import IndexControl.Proofs.Engine.Requests
import IndexControl.Proofs.Steward.Overlay

/-!
# Roots on demand are transient

While requests are applied and requesters released, and nothing else happens, the roots are the
configured ones with roots on demand over them, and every record is held by somebody. A release
removes roots on demand, and what they have taken over comes back at once. So when all requesters
have been released the roots are those of the start again.

## Main definitions

* `EngineMove.IsVisit`: the moves that apply answers of probes and release requesters.
* `Watches.Counted`: every record is held by somebody.
* `Engine.Lends`, `Engine.Owes`: what holds between such moves, and within a release.

## Main results

* `Engine.lends_start`, `Engine.Lends.step`: it holds after the start, and such a move keeps it.
* `Engine.run_visits`: after the last release nothing is left of the requests.
-/

namespace IndexControl

/-- Whether a move applies the answer of a probe or releases a requester. Requests for directories
name a requester. -/
def EngineMove.IsVisit : EngineMove → Prop
  | .handle (.probed _ (.ok p)) =>
    p.IsGenuine ∧ (p.info.isDirectory = true → p.request.requester?.isSome = true)
  | .handle (.probed _ (.error _)) => True
  | .handle (.call _ (.release _)) => True
  | _ => False

theorem EngineMove.IsVisit.isGenuine {move : EngineMove} (h : move.IsVisit) : move.IsGenuine := by
  unfold IsGenuine
  split
  · exact h.1
  · trivial

namespace Watches

variable {w : Watches} {s : RootSet} {t : RootSet × Watches} {root x : Location}
  {requester : Requester}

/-- Every record is held by somebody. -/
def Counted (w : Watches) : Prop :=
  ∀ x record, w.records.find? x = some record → record.counts.isEmpty = false

theorem isEmpty_counts_of_contains {record : WatchRecord}
    (h : record.counts.contains requester = true) : record.counts.isEmpty = false := by
  rw [Bool.eq_false_iff, ne_eq, counts_isEmpty_iff]
  intro hnone
  rw [hnone requester] at h
  exact Bool.noConfusion h

/-- After a request is counted, the record of its root is held by the requester. -/
theorem counted_count
    (h : ∀ x record, x ≠ root → w.records.find? x = some record → record.counts.isEmpty = false)
    (requester : Requester) : (w.count root requester).Counted := by
  intro x record hx
  rw [find?_count] at hx
  split_ifs at hx with hroot
  · obtain rfl := Option.some.inj hx
    exact isEmpty_counts_of_contains (contains_counts_count.2 (.inl rfl))
  · exact h x record hroot hx

/-- A release leaves the records that somebody else holds. -/
theorem Counted.release (h : w.Counted) (s : RootSet) (requester : Requester) :
    (w.release s requester).1.Counted := by
  intro x record hx
  obtain ⟨r, hr, hheld, rfl⟩ := find?_release_eq_some_iff.1 hx
  rw [WatchRecord.isHeldOnlyBy, Bool.and_eq_false_iff] at hheld
  rcases hheld with hcount | hleft
  · have hsome := h x r hr
    rw [Bool.eq_false_iff, ne_eq, counts_isEmpty_iff] at hsome
    push Not at hsome
    obtain ⟨other, hother⟩ := hsome
    have hother : r.counts.contains other = true := by simpa using hother
    refine isEmpty_counts_of_contains (contains_counts_without.2 ⟨hother, ?_⟩)
    rintro rfl
    rw [hcount] at hother
    exact Bool.noConfusion hother
  · exact hleft

/-- Where nobody is recorded, no record is left. -/
theorem Counted.records_eq_empty (h : w.Counted) (hfree : ∀ requester, ¬w.Holds requester) :
    w.records = .empty := by
  refine OrderedMap.ext_find? fun x => ?_
  rw [OrderedMap.find?_empty]
  by_contra hne
  obtain ⟨record, hrecord⟩ := Option.ne_none_iff_exists'.1 hne
  have hsome := h x record hrecord
  rw [Bool.eq_false_iff, ne_eq, counts_isEmpty_iff] at hsome
  push Not at hsome
  obtain ⟨requester, hcount⟩ := hsome
  exact hfree requester (.of_record hrecord (by simpa using hcount))

/-- A release drops the records of the roots that it removes, so that following changes nothing. -/
theorem Settled.followAll_release (h : Settled t) (requester : Requester) :
    (t.2.release t.1 requester).1.followAll (t.2.release t.1 requester).2.1.events =
      (t.2.release t.1 requester).1 := by
  obtain ⟨events, hevents, hremoved⟩ := t.1.events_removeEach (t.2.freed requester)
  rw [h.quiet, List.nil_append] at hevents
  refine followAll_eq_self fun event hevent x hx => ?_
  obtain ⟨q, hq, flags, rfl⟩ := hremoved event (hevents ▸ hevent)
  obtain rfl : q = x := Option.some.inj hx
  obtain ⟨record, hfind, hheld, -⟩ :=
    mem_freed_iff.1 ((mem_removed_iff h.attached h.quiet).1 hq)
  rw [OrderedMap.contains, find?_release, hfind]
  simp [hheld]

end Watches

namespace Engine

open RootSet

variable {w : Steward} {e e' : Engine} {q : Location}

/-- Nothing is queued, every record belongs to a root and is held by somebody, and none is
suspended. -/
structure Held (e : Engine) : Prop where
  sound : e.Sound
  quiet : e.roots.events = []
  counted : e.watches.Counted
  unsuspended : e.watches.suspended = .empty

/-- The roots are the configured ones with roots on demand over them. -/
structure Lends (w : Steward) (e : Engine) : Prop extends Held e where
  steward : e.steward = w
  overlaid : w.Overlaid (fun q => e.watches.isOnDemand q = true) e.roots

/-- Roots on demand have gone, and what they had taken over has not come back yet. -/
structure Owes (w : Steward) (e : Engine) : Prop extends Held e where
  steward : e.steward = w
  uncovered : w.Uncovered (fun q => e.watches.isOnDemand q = true) e.roots

theorem Held.settled (h : Held e) : Watches.Settled e.watched :=
  ⟨h.sound.wellFormed, h.quiet, h.sound.attached⟩

theorem Lends.of_watched (h : Lends w e) (hsound : e'.Sound) (hsteward : e'.steward = e.steward)
    (hwatched : e'.watched = e.watched) : Lends w e' := by
  obtain ⟨hroots, hwatches⟩ := Prod.mk.inj hwatched
  constructor
  case toHeld =>
    exact ⟨hsound, by rw [hroots, h.quiet], by rw [hwatches]; exact h.counted,
      by rw [hwatches, h.unsuspended]⟩
  case steward => rw [hsteward, h.steward]
  case overlaid => rw [hroots, hwatches]; exact h.overlaid

/-! ### Requests -/

/-- The answer of a probe changes nothing, or it is counted for a requester at the root that owns
the target, which may be new. -/
theorem handleProbed_cases (h : Watches.Settled e.watched) (number : Nat) {p : ProbedRequest}
    (hplace : p.place.IsCanonical)
    (hnamed : p.info.isDirectory = true → p.request.requester?.isSome = true) :
    (e.handleProbed number (.ok p)).watched = e.watched ∨
    (∃ owner requester, (e.handleProbed number (.ok p)).roots = e.roots ∧
      (e.handleProbed number (.ok p)).watches = e.watches.count owner requester) ∨
    ∃ requester, e.roots.owner? p.place = none ∧
      (e.handleProbed number (.ok p)).roots = (e.roots.add p.place .onDemand).1.drain.2 ∧
      (e.handleProbed number (.ok p)).watches =
        (e.watches.gather p.place).count p.place requester := by
  have hserved := e.watched_handleProbed number p
  cases hgrants : e.watches.grants p with
  | false => exact .inl (hserved.trans (h.serve_of_not_grants hgrants))
  | true =>
    have hdirectory : p.info.isDirectory = true := by
      rw [Watches.grants, Bool.and_eq_true] at hgrants
      exact hgrants.2
    obtain ⟨requester, hrequester⟩ := Option.isSome_iff_exists.1 (hnamed hdirectory)
    rcases h.serve_of_named hplace hgrants hrequester with
      ⟨owner, -, heq⟩ | ⟨hfree, heq⟩ <;> rw [heq] at hserved
    · exact .inr (.inl ⟨owner, requester, Prod.mk.inj hserved⟩)
    · exact .inr (.inr ⟨requester, hfree, Prod.mk.inj hserved⟩)

theorem Lends.handleProbed (h : Lends w e) (hw : w.AllPermitted) (number : Nat)
    {p : ProbedRequest} (hp : p.IsGenuine)
    (hnamed : p.info.isDirectory = true → p.request.requester?.isSome = true) :
    Lends w (e.handleProbed number (.ok p)) := by
  have hsound : (e.step (.handle (.probed number (.ok p)))).Sound := h.sound.step hp
  have hsteward := steward_applyProbed e p
  rcases handleProbed_cases h.settled number hp.isCanonical hnamed with
    hsame | ⟨owner, requester, hroots, hwatches⟩ | ⟨requester, hfree, hroots, hwatches⟩
  · exact h.of_watched hsound hsteward hsame
  · refine ⟨⟨hsound, by rw [hroots, h.quiet], ?_, ?_⟩, hsteward.trans h.steward, ?_⟩
    · rw [hwatches]
      exact Watches.counted_count (fun x record _ => h.counted x record) requester
    · rw [hwatches]
      exact h.unsuspended
    · refine h.overlaid.congr hsound.wellFormed (fun q => by rw [hroots]) fun q => ?_
      rw [hwatches, Watches.isOnDemand_count]
  · refine ⟨⟨hsound, by rw [hroots]; rfl, ?_, ?_⟩, hsteward.trans h.steward, ?_⟩
    · rw [hwatches]
      refine Watches.counted_count (fun x record hne hx => ?_) requester
      rw [Watches.find?_gather, if_neg hne] at hx
      split_ifs at hx
      exact h.counted x record hx
    · rw [hwatches]
      exact h.unsuspended
    · refine (h.overlaid.add hw hp.isCanonical hfree).congr hsound.wellFormed
        (fun q => by rw [hroots]; rfl) fun q => ?_
      rw [hwatches, Watches.isOnDemand_count, Watches.isOnDemand_gather]

/-! ### Releases -/

theorem Held.watches_letGo (h : Held e) (requester : Requester) :
    (e.letGo requester).watches = (e.watches.release e.roots requester).1 :=
  h.settled.followAll_release requester

theorem Held.flagsAt?_letGo (h : Held e) (requester : Requester) (q : Location) :
    (e.letGo requester).roots.flagsAt? q =
      if q ∈ e.watches.freed requester then none else e.roots.flagsAt? q :=
  flagsAt?_removeEach (fun place hplace => (h.sound.attached.canonical place
    (.inl (Watches.contains_of_isOnDemand (Watches.isOnDemand_of_mem_freed hplace)))).2) q

theorem Held.isOnDemand_letGo (h : Held e) (requester : Requester) :
    (e.letGo requester).watches.isOnDemand q = true ↔
      e.watches.isOnDemand q = true ∧ q ∉ e.watches.freed requester := by
  rw [h.watches_letGo]
  exact Watches.isOnDemand_release

theorem Held.letGo (h : Held e) (requester : Requester) : Held (e.letGo requester) where
  sound := h.sound.upkeeps (upkeeps_letGo e requester)
  quiet := rfl
  counted := by
    rw [h.watches_letGo]
    exact h.counted.release e.roots requester
  unsuspended := by
    rw [h.watches_letGo]
    refine OrderedMap.ext_find? fun x => ?_
    rw [Watches.find?_suspended_release, h.unsuspended]
    rfl

theorem Lends.owes (h : Lends w e) (requester : Requester) : Owes w (e.letGo requester) where
  toHeld := h.toHeld.letGo requester
  steward := h.steward
  uncovered := by
    have honDemand : (fun q => (e.letGo requester).watches.isOnDemand q = true) =
        fun q => e.watches.isOnDemand q = true ∧ q ∉ e.watches.freed requester :=
      funext fun _ => propext (h.isOnDemand_letGo requester)
    rw [honDemand]
    exact h.overlaid.uncovered (h.toHeld.letGo requester).sound.wellFormed
      (h.flagsAt?_letGo requester)

/-- Where no root goes with the requester, nothing has to come back. -/
theorem Lends.letGo_of_kept (h : Lends w e) {requester : Requester}
    (hkept : e.watches.freed requester = []) : Lends w (e.letGo requester) where
  toHeld := h.toHeld.letGo requester
  steward := h.steward
  overlaid := by
    have hsound := (h.toHeld.letGo requester).sound
    refine h.overlaid.congr hsound.wellFormed (fun q => ?_) fun q => ?_
    · rw [h.flagsAt?_letGo, hkept]
      rfl
    · rw [h.isOnDemand_letGo, hkept]
      simp

/-- Bringing back the configured roots changes no record: no root goes that has one, and none that
is there on demand is configured. -/
theorem Owes.restoreUncovered_eq (h : Owes w e) (hw : w.AllPermitted) :
    e.restoreUncovered.roots = (w.syncRoots e.roots).drain.2 ∧ e.restoreUncovered.watches =
      { e.watches with eligibility := w.eligibility e.settings } := by
  have hmarked : (e.steward.configured.map (·.1)).foldl Watches.markStatic e.watches =
      e.watches := by
    refine Watches.markStatics_eq_self fun q hq => ?_
    rw [Steward.map_configured, h.steward] at hq
    rw [Bool.eq_false_iff]
    exact fun honDemand => h.uncovered.apart q honDemand hq
  have hfollowed : Watches.followAll { e.watches with eligibility := w.eligibility e.settings }
      (w.syncRoots e.roots).events = { e.watches with eligibility := w.eligibility e.settings } := by
    refine Watches.followAll_eq_self fun event hevent q hq => ?_
    rcases h.uncovered.ended_syncRoots hw hevent hq with hold | hroot
    · rw [h.quiet] at hold
      exact absurd hold List.not_mem_nil
    · rw [Bool.eq_false_iff]
      intro hrecord
      have hrooted : e.roots.isRoot q = true := h.settled.isRoot_of_record hrecord
      rw [hroot] at hrooted
      exact Bool.noConfusion hrooted
  simp only [restoreUncovered, Watches.restoreSuspended_of_empty h.unsuspended, followDirectories,
    hmarked]
  rw [h.steward]
  exact ⟨rfl, hfollowed⟩

theorem Owes.restoreUncovered (h : Owes w e) (hw : w.AllPermitted) :
    Lends w e.restoreUncovered := by
  obtain ⟨hroots, hwatches⟩ := h.restoreUncovered_eq hw
  have hsound : e.restoreUncovered.Sound := h.sound.upkeeps (.tail (.single .restore) .dispatch)
  refine ⟨⟨hsound, rfl, by rw [hwatches]; exact h.counted, by rw [hwatches]; exact h.unsuspended⟩,
    h.steward, ?_⟩
  refine (h.uncovered.syncRoots hw).congr hsound.wellFormed (fun q => by rw [hroots]; rfl)
    fun q => ?_
  rw [hwatches]
  rfl

theorem Lends.handleRelease (h : Lends w e) (hw : w.AllPermitted) (number : Nat)
    (requester : Requester) : Lends w (e.handleRelease number requester) := by
  let removed := (e.watches.release e.roots requester).2.2
  suffices hrestored : Lends w ((e.letGo requester).restoreAfter removed) from
    hrestored.of_watched (hrestored.sound.upkeep (.aside (holdings_emit ..))) rfl rfl
  rw [restoreAfter]
  split
  · next hremoved =>
    have hnone : (e.watches.release e.roots requester).2.2 = [] := List.isEmpty_iff.1 hremoved
    refine h.letGo_of_kept (List.eq_nil_iff_forall_not_mem.2 fun q hq => ?_)
    rw [← Watches.mem_removed_iff h.sound.attached h.quiet, hnone] at hq
    exact List.not_mem_nil hq
  · exact (h.owes requester).restoreUncovered hw

/-! ### Runs -/

theorem Lends.step (h : Lends w e) (hw : w.AllPermitted) {move : EngineMove}
    (hmove : move.IsVisit) : Lends w (e.step move) := by
  unfold EngineMove.IsVisit at hmove
  split at hmove
  · next number p => exact h.handleProbed hw number hmove.1 hmove.2
  · next number cause =>
    have hsound : (e.step (.handle (.probed number (.error cause)))).Sound :=
      h.sound.step trivial
    exact h.of_watched hsound rfl h.settled.drain
  · next number requester => exact h.handleRelease hw number requester
  · exact hmove.elim

theorem Lends.run (h : Lends w e) (hw : w.AllPermitted) {moves : List EngineMove}
    (hmoves : ∀ move ∈ moves, move.IsVisit) : Lends w (e.run moves) := by
  induction moves generalizing e with
  | nil => exact h
  | cons move moves ih =>
    obtain ⟨hmove, hmoves⟩ := List.forall_mem_cons.1 hmoves
    exact ih (h.step hw hmove) hmoves

/-- Without records the roots are those that the configured directories ask for. -/
theorem Lends.flagsAt?_of_no_records (h : Lends w e) (hrecords : e.watches.records = .empty)
    (q : Location) : e.roots.flagsAt? q = w.wanted? q := by
  have hnone (x : Location) : ¬e.watches.isOnDemand x = true := by
    rw [Watches.isOnDemand, hrecords, OrderedMap.find?_empty]
    exact Bool.false_ne_true
  exact h.overlaid.elsewhere q (hnone q) fun above habove => absurd habove (hnone above)

/-! ### The start -/

theorem flagsAt?_checkSnapshot (e : Engine) (q : Location) :
    e.checkSnapshot.roots.flagsAt? q = e.roots.flagsAt? q := by
  rw [checkSnapshot]
  split
  · rfl
  · simp only [Snapshot.check]
    split
    · rfl
    · split
      · rfl
      · split <;> rfl

theorem checkSnapshot_aside (e : Engine) :
    e.checkSnapshot.steward = e.steward ∧ e.checkSnapshot.watches = e.watches := by
  rw [checkSnapshot]
  split <;> exact ⟨rfl, rfl⟩

/-- The engine that has built the roots of its settings and done nothing else yet. -/
def established (e : Engine) : Engine := { e with
  steward := (e.steward.establish e.roots e.settings).1
  roots := (e.steward.establish e.roots e.settings).2 }

theorem start_eq (e : Engine) :
    e.start = e.established.followDirectories.checkSnapshot.dispatch := rfl

/-- At the start nothing is recorded. -/
theorem watches_start (buffered settings : Settings) (environment : Environment)
    (systemLocations : List Location) (disk : Disk) :
    ∃ eligibility, (new buffered settings environment systemLocations disk).start.watches =
      ⟨.empty, .empty, eligibility⟩ := by
  let e := (new buffered settings environment systemLocations disk).established
  have hmarked : (e.steward.configured.map (·.1)).foldl Watches.markStatic e.watches = .empty :=
    Watches.markStatics_eq_self fun _ _ => rfl
  have hfollowed : e.followDirectories.watches =
      ⟨.empty, .empty, e.steward.eligibility settings⟩ := by
    rw [followDirectories]
    simp only [hmarked]
    rfl
  refine ⟨e.steward.eligibility settings, ?_⟩
  rw [start_eq, dispatch]
  simp only [checkSnapshot_aside, e, hfollowed]
  exact Watches.followAll_eq_self fun _ _ _ _ => rfl

theorem lends_start (buffered settings : Settings) (environment : Environment)
    (systemLocations : List Location) (disk : Disk) :
    Lends ((Steward.new environment systemLocations).under settings)
      (new buffered settings environment systemLocations disk).start := by
  let e := (new buffered settings environment systemLocations disk).established
  have hfollows := Steward.follows_establish (w := .new environment systemLocations) rfl .none
    settings
  obtain ⟨eligibility, hwatches⟩ := watches_start buffered settings environment systemLocations disk
  have hnone (q : Location) :
      ¬(new buffered settings environment systemLocations disk).start.watches.isOnDemand q =
        true := by
    rw [hwatches]
    exact Bool.false_ne_true
  constructor
  case toHeld =>
    refine ⟨sound_start buffered settings environment systemLocations disk, rfl,
      fun x record hx => ?_, ?_⟩
    · rw [hwatches] at hx
      contradiction
    · rw [hwatches]
  case steward =>
    exact (checkSnapshot_aside e.followDirectories).1.trans hfollows.steward
  case overlaid =>
    refine ⟨⟨(sound_start buffered settings environment systemLocations disk).wellFormed,
      fun q hq => absurd hq (hnone q), fun q hq => absurd hq (hnone q),
      fun q hq => absurd hq (hnone q)⟩, fun q _ _ => ?_⟩
    exact (flagsAt?_checkSnapshot e.followDirectories q).trans (hfollows.flagsAt? q)

/-- **Roots on demand are transient.** Let no configured directory lie in a system location. After
the start and any moves that apply answers of probes and release requesters, where each request for
a directory names a requester and each requester is released after its last request, the roots and
their flags are those of the start again, and nobody is recorded, neither at a root nor at a
suspended one. -/
theorem run_visits (buffered settings : Settings) (environment : Environment)
    (systemLocations : List Location) (disk : Disk) {moves : List EngineMove}
    (hpermitted : ∀ place ∈
      (new buffered settings environment systemLocations disk).start.steward.directories.places,
      (new buffered settings environment systemLocations disk).start.steward.isSystemLocation place =
        false)
    (hmoves : ∀ move ∈ moves, move.IsVisit)
    (hreleased : ∀ before number p after requester,
      moves = before ++ .handle (.probed number (.ok p)) :: after →
      p.request.requester? = some requester →
      ∃ later, .handle (.call later (.release requester)) ∈ after) :
    let start := (new buffered settings environment systemLocations disk).start
    let last := start.run moves
    (∀ q, last.roots.flagsAt? q = start.roots.flagsAt? q) ∧
      last.watches.records = .empty ∧ last.watches.suspended = .empty := by
  intro start last
  let w := (Steward.new environment systemLocations).under settings
  have hstart : Lends w start := lends_start buffered settings environment systemLocations disk
  have hw : w.AllPermitted := ⟨Steward.canonical_directoriesOf _ settings, by
    rw [← hstart.steward]
    exact hpermitted⟩
  have hlast : Lends w last := hstart.run hw hmoves
  obtain ⟨eligibility, hwatches⟩ := watches_start buffered settings environment systemLocations disk
  have hfree : ∀ requester, ¬last.watches.Holds requester := by
    intro requester hheld
    rcases holds_of_run hstart.sound (fun move hmove => (hmoves move hmove).isGenuine) hheld with
      ⟨x, record, hx, -⟩ | ⟨before, number, p, after, hsplit, hrequester, hkept⟩
    · rw [hwatches] at hx
      simp [OrderedMap.find?_empty] at hx
    · obtain ⟨later, hmem⟩ := hreleased before number p after requester hsplit hrequester
      exact hkept later hmem
  have hrecords : last.watches.records = .empty := hlast.counted.records_eq_empty hfree
  refine ⟨fun q => ?_, hrecords, hlast.unsuspended⟩
  rw [hlast.flagsAt?_of_no_records hrecords, hstart.flagsAt?_of_no_records (by rw [hwatches])]

/-- `x` has the configured root at `/a/b` folded into one at `/a`, which `y` holds too. -/
theorem run_visits_nested :
    let nowhere : Environment := ⟨fun _ => none, none, fun _ => none, fun _ => false⟩
    let settings : Settings :=
      { Settings.default with singleDirectories := [], recursiveDirectories := ["/a/b"] }
    let lower := (Path.ofString "/a/b").location
    let upper := (Path.ofString "/a").location
    let info : FileInfo := ⟨.directory, none, none, false⟩
    let requests : List EngineMove := [
      .handle (.probed 1 (.ok ⟨.directory "/a" (some "x"), upper, info⟩)),
      .handle (.probed 2 (.ok ⟨.directory "/a/b" (some "y"), lower, info⟩))]
    let releases : List EngineMove := [.handle (.call 3 (.release "x")),
      .handle (.call 4 (.release "y"))]
    let start := (new settings settings nowhere Steward.usualSystemLocations ⟨.empty⟩).start
    (start.run requests).roots.places = [upper] ∧
      ∀ q, (start.run (requests ++ releases)).roots.flagsAt? q = start.roots.flagsAt? q := by
  intro nowhere settings lower upper info requests releases start
  let attributes := (Attributes.empty.setFile lower (.known info)).setFile upper (.known info)
  have hmoves : ∀ move ∈ requests ++ releases, move.IsVisit := by
    simp only [requests, releases, List.cons_append, List.nil_append, List.forall_mem_cons]
    exact ⟨⟨⟨attributes, false, by decide⟩, fun _ => rfl⟩,
      ⟨⟨attributes, false, by decide⟩, fun _ => rfl⟩, trivial, trivial, by simp⟩
  refine ⟨by decide, (run_visits settings settings nowhere Steward.usualSystemLocations ⟨.empty⟩
    (by decide) hmoves ?_).1⟩
  intro before number p after requester hsplit hrequester
  have hcases : (p = ⟨.directory "/a" (some "x"), upper, info⟩ ∨
      p = ⟨.directory "/a/b" (some "y"), lower, info⟩) ∧ ∀ move ∈ releases, move ∈ after := by
    simp only [requests, releases, List.cons_append, List.nil_append, List.cons_eq_append_iff,
      List.cons.injEq, EngineMove.handle.injEq, EngineEvent.probed.injEq, Except.ok.injEq,
      reduceCtorEq, false_and, and_false, List.nil_eq, List.append_eq_nil_iff, exists_const,
      or_self, or_false, ↓existsAndEq, true_and] at hsplit
    rcases hsplit with ⟨-, ⟨-, rfl⟩, rfl⟩ | ⟨-, ⟨-, rfl⟩, rfl⟩ <;> simp [releases]
  obtain ⟨rfl | rfl, hafter⟩ := hcases <;> obtain rfl := Option.some.inj hrequester
  · exact ⟨3, hafter _ (by simp [releases])⟩
  · exact ⟨4, hafter _ (by simp [releases])⟩

end Engine

end IndexControl
