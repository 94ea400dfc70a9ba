import IndexControl.Proofs.Engine.Moves
import IndexControl.Proofs.Steward.Shelter
import IndexControl.Proofs.Watches.Return

/-!
# Suspended places that no root owns

A root is suspended when it is folded into one above it, and comes back when roots are removed. As
long as no volumes come or go, there is one other way for a suspended place to lose its owner: a
change of the settings makes the recursive root above it a plain one without removing any root.
Nothing brings the suspended root back then.

## Main definitions

* `Engine.Stray`: a suspended place that no root owns.
* `Engine.Demotes`: a change of the settings that makes a recursive root above a suspended place a
  plain one, and removes nothing.
* `Engine.StrayedBy`: such a change among some moves, since which the place has been stray.

## Main results

* `Engine.not_stray_restoreUncovered`: no place is stray after roots have been brought back.
* `Engine.stray_of_step`: how a place becomes stray.
* `Engine.stray_iff_demoted`: which places are stray after some moves.
-/

namespace IndexControl

namespace Engine

open RootSet

variable {e e' e'' : Engine} {q above : Location}

/-- A place is stray where it is suspended and no root owns it. -/
def Stray (e : Engine) (place : Location) : Prop :=
  e.watches.isSuspended place = true ∧ e.roots.owner? place = none

theorem Stray.not_isOwned (h : e.Stray q) : ¬e.roots.IsOwned q := by
  rw [IsOwned, h.2]
  exact Bool.noConfusion

theorem stray_of_not_isOwned (h : e.watches.isSuspended q = true) (hq : ¬e.roots.IsOwned q) :
    e.Stray q := ⟨h, by simpa [IsOwned] using hq⟩

/-! ### Parts of moves that leave no more places stray -/

/-- What is owned stays owned, and a place that is suspended anew is owned. -/
structure Keeps (e e' : Engine) : Prop where
  owned : ∀ q, e.roots.IsOwned q → e'.roots.IsOwned q
  suspended : ∀ q, e'.watches.isSuspended q = true →
    e.watches.isSuspended q = true ∨ e'.roots.IsOwned q

theorem Keeps.stray (h : e.Keeps e') (hq : e'.Stray q) : e.Stray q :=
  stray_of_not_isOwned ((h.suspended q hq.1).resolve_right hq.not_isOwned)
    fun howned => hq.not_isOwned (h.owned q howned)

theorem Keeps.trans (h : e.Keeps e') (h' : e'.Keeps e'') : e.Keeps e'' where
  owned q hq := h'.owned q (h.owned q hq)
  suspended q hq := by
    rcases h'.suspended q hq with hq | howned
    · exact (h.suspended q hq).imp_right (h'.owned q)
    · exact .inr howned

theorem Undisturbed.keeps (h : e.Undisturbed e') : e.Keeps e' where
  owned _ hq := (isOwned_congr h.flagsAt?).2 hq
  suspended _ hq := .inl (by rwa [h.watches] at hq)

theorem Undisturbed.stray (h : e.Undisturbed e') (hq : e'.Stray q) : e.Stray q := h.keeps.stray hq

/-- What is suspended when the queue has been followed was so before or has been folded into
another root. -/
theorem isSuspended_dispatch (h : e.dispatch.watches.isSuspended q = true) :
    e.watches.isSuspended q = true ∨ ∃ into, .absorbed q into ∈ e.roots.events :=
  Watches.contains_suspended_followAll h

theorem keeps_dispatch (hquiet : e.roots.events = [])
    (hroots : e.roots.Shelters e'.roots) (hsuspended : ∀ q, e'.watches.isSuspended q = true →
      e.watches.isSuspended q = true) : e.Keeps e'.dispatch where
  owned q hq := hroots.owned q hq
  suspended q hq := by
    refine (isSuspended_dispatch hq).imp (hsuspended q) ?_
    rintro ⟨into, hevent⟩
    refine (hroots.absorbed q into hevent).resolve_left ?_
    rw [hquiet]
    exact List.not_mem_nil

/-- **No place is stray after roots have been brought back.** -/
theorem not_stray_restoreUncovered (he : e.Sound) (hquiet : e.roots.events = []) (q : Location) :
    ¬e.restoreUncovered.Stray q := by
  intro hq
  let s := e.steward.syncRoots e.roots
  let t := (e.watches.restoreSuspended s).2.1
  have hsync : Changes Location.IsSpelled e.roots s :=
    Steward.changes_syncRoots (fun _ hplace => hplace.isSpelled) e.roots
  have hattached : e.watches.Attached s := he.attached.of_changes hsync
  have hs : s.WellFormed := hsync.wellFormed he.wellFormed
  have hshelters : s.Shelters t := Watches.shelters_restoreSuspended hattached hs
  have hfree : ¬t.IsOwned q := hq.not_isOwned
  rcases isSuspended_dispatch hq.1 with hsuspended | ⟨into, hevent⟩
  · refine hfree (Watches.isOwned_restoreSuspended hattached hs ?_)
    refine Watches.contains_suspended_of_restoreSuspended (s := s) ?_
    have hsame := Watches.suspended_markStatics (e.watches.restoreSuspended s).1
      (e.steward.configured.map (·.1))
    rw [← hsame]
    exact hsuspended
  · rcases hshelters.absorbed q into hevent with hevent | howned
    · rcases e.steward.isOwned_of_absorbed_syncRoots he.wellFormed hevent with hevent | howned
      · rw [hquiet] at hevent
        exact List.not_mem_nil hevent
      · exact hfree (hshelters.owned q howned)
    · exact hfree howned

/-! ### The kinds of moves -/

/-- A release that removes a root leaves no place stray, and another one leaves no more. -/
theorem handleRelease_not_stray_or_keeps (he : e.Sound) (hquiet : e.roots.events = [])
    (number : Nat) (requester : Requester) :
    (∀ q, ¬(e.handleRelease number requester).Stray q) ∨
      e.Spares (e.handleRelease number requester) ∧ e.Keeps (e.handleRelease number requester) := by
  let removed := (e.watches.release e.roots requester).2.2
  have hanswer : ((e.letGo requester).restoreAfter removed).Undisturbed
      (e.handleRelease number requester) := (sameView_emit _ rfl).undisturbed rfl
  by_cases hnone : removed = []
  · have hrestore : (e.letGo requester).restoreAfter removed = e.letGo requester := by
      rw [restoreAfter, hnone]
      rfl
    let e₁ : Engine := { e with
      watches := (e.watches.release e.roots requester).1
      roots := (e.watches.release e.roots requester).2.1 }
    have hroots : e₁.roots = e.roots := removeEach_eq_self hnone
    have hspares : e.Spares e₁.dispatch := by
      refine spares_dispatch hquiet rfl ?_
      rw [hroots]
      exact .refl e.roots
    have hkeeps : e.Keeps e₁.dispatch := by
      refine keeps_dispatch hquiet ?_ fun q =>
        Watches.contains_suspended_of_release (s := e.roots)
      rw [hroots]
      exact .refl e.roots
    rw [hrestore] at hanswer
    exact .inr ⟨hspares.trans (.of_crawled hanswer.crawled), hkeeps.trans hanswer.keeps⟩
  · refine .inl fun q hq => ?_
    have hback := hanswer.stray hq
    rw [restoreAfter, if_neg (by simpa using hnone)] at hback
    exact not_stray_restoreUncovered (he.upkeeps (upkeeps_letGo e requester)) rfl q hback

/-- A request leaves no more places stray and removes nothing. -/
theorem handleProbed_spares_and_keeps (he : e.Sound) (hquiet : e.roots.events = []) (number : Nat)
    {p : ProbedRequest} (hp : p.IsGenuine) :
    e.Spares (e.handleProbed number (.ok p)) ∧ e.Keeps (e.handleProbed number (.ok p)) := by
  have hanswer : (e.applyProbed p).1.dispatch.Undisturbed (e.handleProbed number (.ok p)) :=
    (sameView_emit _ rfl).undisturbed rfl
  suffices happlied : e.Spares (e.applyProbed p).1.dispatch ∧
      e.Keeps (e.applyProbed p).1.dispatch from
    ⟨happlied.1.trans (.of_crawled hanswer.crawled), happlied.2.trans hanswer.keeps⟩
  rcases e.applyProbed_cases p with heq | ⟨a, happly, hholdings, hcrawled⟩
  · have hdispatch := undisturbed_dispatch hquiet
    rw [heq]
    exact ⟨.of_crawled hdispatch.crawled, hdispatch.keeps⟩
  · simp only [holdings, Prod.mk.injEq] at hholdings
    obtain ⟨-, hroots, hwatches⟩ := hholdings
    constructor
    · refine spares_dispatch hquiet hcrawled ?_
      rw [hroots]
      exact Watches.spares_apply happly
    · refine keeps_dispatch hquiet ?_ fun q hq => ?_
      · rw [hroots]
        exact Watches.shelters_apply happly he.wellFormed hp.isCanonical.1
      · rw [Watches.isSuspended, hwatches, Watches.suspended_apply happly] at hq
        exact hq

/-- A change of the settings uncovers a suspended place: the root that has owned it stays, but as a
plain one, and no root is removed. -/
structure Demotes (e : Engine) (settings : Settings) (above place : Location) : Prop where
  suspended : e.watches.isSuspended place = true
  owned : e.roots.owner? place = some above
  recursive : e.roots.isRecursiveRoot above = true
  stays : (e.adopt settings).roots.isRoot above = true
  plain : (e.adopt settings).roots.isRecursiveRoot above = false
  spares : e.Spares (e.adopt settings)

/-- Where a change of the settings removes nothing, its first half tells of no removal, leaves every
root owned, and suspends nothing that is not owned. -/
theorem applied_of_none_removed (he : e.Sound) (hquiet : e.roots.events = [])
    (hmounts : e.steward.mounts = .empty) {change : SettingsChange}
    (hnone : e.removedBy change = []) :
    e.Spares (e.applied change) ∧
      (∀ q, e.roots.isRoot q = true → (e.applied change).roots.IsOwned q) ∧
      ∀ q, (e.applied change).watches.isSuspended q = true →
        e.watches.isSuspended q = true ∨ (e.applied change).roots.IsOwned q := by
  have happlied := e.undisturbed_applied change
  let s := Steward.followFilters e.roots e.settings change
  have hretains : e.roots.Retains s := Steward.retains_followFilters ..
  have hs : s.WellFormed := (Steward.changes_followFilters ..).wellFormed he.wellFormed
  have hcases : (e.followed change).roots = s ∨
      ∃ v : Steward, (e.followed change).roots = v.syncRoots s := by
    rw [roots_followed]
    exact Steward.applySettings_of_none_removed hmounts hnone
  have hspares : e.roots.Spares (e.followed change).roots := by
    have hfilters : e.roots.Spares s := by
      simp only [s, Steward.followFilters]
      split
      · refine ⟨_, rfl, fun event hevent => ?_⟩
        obtain ⟨place, -, rfl⟩ := List.mem_map.1 hevent
        rfl
      · exact .refl _
    rcases hcases with heq | ⟨v, heq⟩ <;> rw [heq]
    · exact hfilters
    · exact hfilters.trans (v.spares_syncRoots s)
  have hroots (q) (hq : e.roots.isRoot q = true) : (e.followed change).roots.IsOwned q := by
    rcases hcases with heq | ⟨v, heq⟩ <;> rw [heq]
    · exact isOwned_of_isRoot (hretains.isRoot q hq)
    · exact v.isOwned_syncRoots hs (hretains.isRoot q hq)
  have habsorbed (q into) (hevent : .absorbed q into ∈ (e.followed change).roots.events) :
      (e.followed change).roots.IsOwned q := by
    have hnew : .absorbed q into ∉ s.events := fun hevent => by
      have hold := hretains.absorbed q into hevent
      rw [hquiet] at hold
      exact List.not_mem_nil hold
    rcases hcases with heq | ⟨v, heq⟩ <;> rw [heq] at hevent ⊢
    · exact absurd hevent hnew
    · exact (v.isOwned_of_absorbed_syncRoots hs hevent).resolve_left hnew
  have hdispatch : e.Spares (e.followed change).dispatch :=
    spares_dispatch hquiet (crawled_followed e change) hspares
  refine ⟨hdispatch.trans (.of_crawled happlied.crawled), fun q hq => ?_, fun q hq => ?_⟩
  · exact happlied.keeps.owned q (hroots q hq)
  · rcases happlied.keeps.suspended q hq with hq | howned
    · rcases isSuspended_dispatch hq with hq | ⟨into, hevent⟩
      · left
        rwa [Watches.isSuspended, suspended_followed] at hq
      · exact .inr (happlied.keeps.owned q (habsorbed q into hevent))
    · exact .inr howned

/-- Other settings leave no place stray where they remove a root, and another change of the settings
only such places as were so before or are uncovered by it. -/
theorem adopt_not_stray_or_demotes (he : e.Sound) (hquiet : e.roots.events = [])
    (hmounts : e.steward.mounts = .empty) (settings : Settings) :
    (∀ q, ¬(e.adopt settings).Stray q) ∨ e.Spares (e.adopt settings) ∧
      ∀ q, (e.adopt settings).Stray q → e.Stray q ∨ ∃ above, e.Demotes settings above q := by
  cases hchange : e.settings.change? settings with
  | none =>
    rw [adopt_of_none hchange]
    exact .inr ⟨.of_crawled rfl, fun q hq => .inl hq⟩
  | some change =>
    let e₀ : Engine := { e with settings }
    have hadopt : e.adopt settings = e₀.applyChange change := adopt_of_some hchange
    have hafter := e₀.undisturbed_applyChange change
    rw [← hadopt] at hafter
    have he₀ : e₀.Sound := ⟨he.wellFormed, he.mounts, he.attached⟩
    by_cases hnone : e₀.removedBy change = []
    · have hrestore : (e₀.applied change).restoreAfter (e₀.removedBy change) =
          e₀.applied change := by
        rw [restoreAfter, hnone]
        rfl
      rw [hrestore] at hafter
      obtain ⟨hspares, hroots, hsuspended⟩ := applied_of_none_removed he₀ hquiet hmounts hnone
      have hspares : e.Spares (e.adopt settings) := by
        refine Spares.trans ?_ (.of_crawled hafter.crawled)
        exact hspares
      refine .inr ⟨hspares, fun q hq => ?_⟩
      have hback := hafter.stray hq
      have hold : e.watches.isSuspended q = true :=
        (hsuspended q hback.1).resolve_right hback.not_isOwned
      cases howner : e.roots.owner? q with
      | none => exact .inl ⟨hold, howner⟩
      | some above =>
        have hwellFormed : (e.adopt settings).roots.WellFormed :=
          (he.upkeeps (upkeeps_adopt he.mounts settings)).wellFormed
        obtain ⟨hrec, hstays, hplain⟩ := he.wellFormed.plain_of_not_isOwned hwellFormed
          (fun x hx => hafter.keeps.owned x (hroots x hx)) howner hq.not_isOwned
        exact .inr ⟨above, hold, howner, hrec, hstays, hplain, hspares⟩
    · refine .inl fun q hq => ?_
      have hback := hafter.stray hq
      rw [restoreAfter, if_neg (by simpa using hnone)] at hback
      exact not_stray_restoreUncovered (he₀.upkeeps (upkeeps_applied he₀.mounts change)) rfl q hback

/-! ### Runs -/

/-- A move that is not about a volume leaves no place stray where it removes a root, and otherwise
only such places as were so before or are uncovered by changed settings. -/
theorem step_not_stray_or_demotes (he : e.Sound) (hquiet : e.roots.events = [])
    (hmounts : e.steward.mounts = .empty) {move : EngineMove} (hmove : move.IsGenuine)
    (hvolume : ¬move.IsVolume) :
    (∀ q, ¬(e.step move).Stray q) ∨ e.Spares (e.step move) ∧
      ∀ q, (e.step move).Stray q → e.Stray q ∨
        ∃ settings above, move = .adopt settings ∧ e.Demotes settings above q := by
  rcases move.kinds with hidle | ⟨number, requester, rfl⟩ | ⟨number, p, rfl⟩ | ⟨settings, rfl⟩ |
    ⟨event, rfl⟩
  · have hsame := undisturbed_step hquiet hidle
    exact .inr ⟨.of_crawled hsame.crawled, fun q hq => .inl (hsame.stray hq)⟩
  · exact (handleRelease_not_stray_or_keeps he hquiet number requester).imp_right
      fun ⟨hspares, hkeeps⟩ => ⟨hspares, fun q hq => .inl (hkeeps.stray hq)⟩
  · obtain ⟨hspares, hkeeps⟩ := handleProbed_spares_and_keeps he hquiet number hmove
    exact .inr ⟨hspares, fun q hq => .inl (hkeeps.stray hq)⟩
  · refine (adopt_not_stray_or_demotes he hquiet hmounts settings).imp_right
      fun ⟨hspares, hstray⟩ => ⟨hspares, fun q hq => (hstray q hq).imp_right ?_⟩
    rintro ⟨above, hdemotes⟩
    exact ⟨settings, above, rfl, hdemotes⟩
  · exact absurd trivial hvolume

/-- A change of the settings among some moves has uncovered a suspended place, and the later ones
leave it stray. -/
structure StrayedBy (e : Engine) (moves : List EngineMove) (place : Location)
    (before : List EngineMove) (settings : Settings) (above : Location)
    (after : List EngineMove) : Prop where
  split : moves = before ++ .adopt settings :: after
  demotes : (e.run before).Demotes settings above place
  since : ∀ next, next <+: after → (e.run (before ++ .adopt settings :: next)).Stray place

theorem not_stray_start (buffered settings : Settings) (environment : Environment)
    (systemLocations : List Location) (disk : Disk) (q : Location) :
    ¬(new buffered settings environment systemLocations disk).start.Stray q := by
  intro hq
  obtain ⟨eligibility, hwatches⟩ := watches_start buffered settings environment systemLocations disk
  have hsuspended := hq.1
  rw [hwatches] at hsuspended
  exact Bool.noConfusion hsuspended

/-- A place that is stray after some moves has been uncovered by one of them. -/
theorem stray_of_run (buffered settings : Settings) (environment : Environment)
    (systemLocations : List Location) (disk : Disk) {moves : List EngineMove}
    (hmoves : ∀ move ∈ moves, move.IsGenuine ∧ ¬move.IsVolume)
    (hq : ((new buffered settings environment systemLocations disk).start.run moves).Stray q) :
    ∃ before changed above after,
      (new buffered settings environment systemLocations disk).start.StrayedBy moves q before
        changed above after := by
  obtain ⟨before, move, after, rfl, hold, hsince⟩ := exists_since (P := (Stray · q))
    (not_stray_start buffered settings environment systemLocations disk q) hq
  obtain ⟨hbefore, hlater⟩ := List.forall_mem_append.1 hmoves
  obtain ⟨hgenuine, hvolume⟩ := hlater move List.mem_cons_self
  have hsound := sound_run buffered settings environment systemLocations disk
    fun m hm => (hbefore m hm).1
  have hquiet :=
    ((inStep_start buffered settings environment systemLocations disk).run before).quiet
  have hmounts := mounts_run buffered settings environment systemLocations disk
    fun m hm => (hbefore m hm).2
  have hstep := hsince [] List.nil_prefix
  rw [run_concat] at hstep
  rcases step_not_stray_or_demotes hsound hquiet hmounts hgenuine hvolume with hnone | ⟨-, hstray⟩
  · exact absurd hstep (hnone q)
  · obtain ⟨changed, above, rfl, hdemotes⟩ := (hstray q hstep).resolve_left hold
    exact ⟨before, changed, above, after, rfl, hdemotes, hsince⟩

/-- **Suspended roots come back when their cover goes, unless settings make it a plain root.** Let
no volume come or go. After the start and any moves a suspended place has no owner just where a
change of the settings has made the recursive root above it a plain one without removing any root,
and nothing has covered or released the place since. A move after which the crawler is told of a
removal leaves every suspended place owned. -/
theorem stray_iff_demoted (buffered settings : Settings) (environment : Environment)
    (systemLocations : List Location) (disk : Disk) {moves : List EngineMove}
    (hmoves : ∀ move ∈ moves, move.IsGenuine ∧ ¬move.IsVolume) :
    let start := (new buffered settings environment systemLocations disk).start
    let e := start.run moves
    (∀ q, e.Stray q ↔
      ∃ before changed above after, start.StrayedBy moves q before changed above after) ∧
    ∀ move : EngineMove, move.IsGenuine → ¬move.IsVolume → ¬e.Spares (e.step move) →
      ∀ q, (e.step move).watches.isSuspended q = true →
        ((e.step move).roots.owner? q).isSome = true := by
  intro start e
  refine ⟨fun q => ⟨stray_of_run buffered settings environment systemLocations disk hmoves, ?_⟩, ?_⟩
  · rintro ⟨before, changed, above, after, hstrayed⟩
    have hsince := hstrayed.since after (List.prefix_refl after)
    rwa [← hstrayed.split] at hsince
  · intro move hgenuine hvolume hremoves q hsuspended
    have hsound : e.Sound :=
      sound_run buffered settings environment systemLocations disk fun m hm => (hmoves m hm).1
    have hquiet : e.roots.events = [] :=
      ((inStep_start buffered settings environment systemLocations disk).run moves).quiet
    have hmounts : e.steward.mounts = .empty :=
      mounts_run buffered settings environment systemLocations disk fun m hm => (hmoves m hm).2
    rcases step_not_stray_or_demotes hsound hquiet hmounts hgenuine hvolume with hnone | hspares
    · by_contra hfree
      exact hnone q (stray_of_not_isOwned hsuspended hfree)
    · exact absurd hspares.1 hremoves

/-- The root of `x` at `/a/b` is folded into the configured directory `/a`, and that becomes a single
directory while `y` is recorded there. -/
theorem stray_iff_demoted_single :
    let nowhere : Environment := ⟨fun _ => none, none, fun _ => none, fun _ => false⟩
    let settings : Settings :=
      { Settings.default with singleDirectories := [], recursiveDirectories := [] }
    let lower := (Path.ofString "/a/b").location
    let attributes := Attributes.empty.setFile lower (.known ⟨.directory, none, none, false⟩)
    let ask (number : Nat) (requester : Requester) : EngineMove := .handle (.probed number
      (IndexRequest.probe attributes false (.directory "/a/b" (some requester))))
    let moves : List EngineMove :=
      [ask 1 "x", .adopt { settings with recursiveDirectories := ["/a"] }, ask 2 "y",
        .adopt { settings with singleDirectories := ["/a"] }]
    (∀ move ∈ moves, move.IsGenuine ∧ ¬move.IsVolume) ∧ ∃ before changed above after,
      (new settings settings nowhere [] ⟨.empty⟩).start.StrayedBy moves lower before changed above
        after := by
  intro nowhere settings lower attributes ask moves
  have hmoves : ∀ move ∈ moves, move.IsGenuine ∧ ¬move.IsVolume := by
    simp only [moves, List.forall_mem_cons]
    exact ⟨⟨EngineMove.isGenuine_probed .., id⟩, ⟨trivial, id⟩,
      ⟨EngineMove.isGenuine_probed .., id⟩, ⟨trivial, id⟩, by simp⟩
  obtain ⟨hiff, -⟩ := stray_iff_demoted settings settings nowhere [] ⟨.empty⟩ hmoves
  exact ⟨hmoves, (hiff lower).1 ⟨by decide, by decide⟩⟩

/-- A suspended root is left to nobody: `x` asks for `/a/b`, which is folded into the configured
directory `/a`, and that becomes a single directory. -/
theorem not_owned_after_single :
    let nowhere : Environment := ⟨fun _ => none, none, fun _ => none, fun _ => false⟩
    let settings : Settings :=
      { Settings.default with singleDirectories := [], recursiveDirectories := [] }
    let lower := (Path.ofString "/a/b").location
    let upper := (Path.ofString "/a").location
    let attributes := Attributes.empty.setFile lower (.known ⟨.directory, none, none, false⟩)
    let request : IndexRequest := .directory "/a/b" (some "x")
    let e := (new settings settings nowhere [] ⟨.empty⟩).start.run
      [.handle (.call 1 (.index request)), .handle (.probed 1 (request.probe attributes false)),
      .adopt { settings with recursiveDirectories := ["/a"] },
      .adopt { settings with singleDirectories := ["/a"] }]
    e.watches.suspended.keys = [lower] ∧ e.roots.places = [upper] ∧
      e.roots.isRecursiveRoot upper = false ∧ e.roots.owner? lower = none := by
  decide

end Engine

end IndexControl
