import IndexControl.Proofs.Engine.Advances
import IndexControl.Proofs.Steward.Removable
import IndexControl.Proofs.Steward.Terms

/-!
# Why a root comes

A root comes when somebody asks for it, when a volume comes, or when removable volumes come to be
indexed. A move that removes a root, or that changes what is configured, adds all configured
directories anew, whatever else has become of them, and a move that removes a root brings back
suspended ones.

## Main definitions

* `Engine.Knows`: there is a root at a place, or one is suspended there.
* `Engine.AsksFor`, `Engine.Removes`, `Engine.Resyncs`: kinds of moves.
* `Engine.Arrival`: the reasons for which a root comes.
* `Engine.Gains`: what is added, and what comes to be known, is of one kind.

## Main results

* `Engine.Steady.gains_step`, `Engine.Steady.arrivals_run`: every root that comes has such a reason.
* `Engine.Steady.isRoot_of_asksFor`: who asks for a directory without an owner gets a root there.
* `Engine.Steady.isOwned_of_resyncs`: a move that adds all configured directories leaves them owned.
-/

namespace IndexControl

namespace Steward

variable {w : Steward} {q : Location}

theorem Indexes.mem_places (h : w.Indexes q) : q ∈ w.directories.places := w.map_configured ▸ h.1

theorem Indexes.isCanonical (h : w.Indexes q) (hd : w.directories.Canonical) : q.IsCanonical :=
  hd.isCanonical h.mem_places

theorem IndexesWith.canonical_eq {m : Mount} (h : w.IndexesWith m q) (hd : w.directories.Canonical)
    (hfixed : m.removable = false) : q.canonical = q := by
  rw [IndexesWith, hfixed, if_neg Bool.false_ne_true] at h
  exact (h.1.isCanonical hd).2

end Steward

namespace Engine

open RootSet

variable {P Q : Location → Prop} {e e' e'' : Engine} {q : Location}

/-- There is a root at a place, or one is suspended there. -/
def Knows (e : Engine) (place : Location) : Prop :=
  e.roots.isRoot place = true ∨ e.watches.isSuspended place = true

/-! ### The reasons -/

/-- A move applies a request that is granted, for a directory that has no owner. -/
def AsksFor (e : Engine) (move : EngineMove) (place : Location) : Prop :=
  ∃ number p, move = .handle (.probed number (.ok p)) ∧ p.place = place ∧
    e.watches.grants p = true ∧ e.roots.owner? place = none

/-- A move removes roots, so that what they have covered comes back. -/
inductive Removes (e : Engine) : EngineMove → Prop
  | release {number : Nat} {requester : Requester}
    (h : (e.watches.release e.roots requester).2.2 ≠ []) :
    Removes e (.handle (.call number (.release requester)))
  | adopt {settings : Settings} {change : SettingsChange}
    (hchange : e.settings.change? settings = some change)
    (h : removedBy { e with settings } change ≠ []) : Removes e (.adopt settings)

/-- A move adds all configured directories anew. -/
inductive Resyncs (e : Engine) : EngineMove → Prop
  | removal {move : EngineMove} (h : e.Removes move) : Resyncs e move
  | adopt {settings : Settings} {change : SettingsChange}
    (hchange : e.settings.change? settings = some change)
    (h : change.touchesDirectories = true ∨ change.touches .enableMonitors = true) :
    Resyncs e (.adopt settings)

/-- The reasons for which a move adds a root at a place. -/
inductive Arrival (e : Engine) (move : EngineMove) (place : Location) : Prop
  /-- Somebody asks for the directory. -/
  | asked (h : e.AsksFor move place)
  /-- A volume comes with which the place is indexed. -/
  | brought {m : Mount} {spelled : Location} (hmove : move = .handle (.volume (.mounted m)))
    (h : e.steward.IndexesWith m spelled) (hplace : spelled.canonical = place)
  /-- All configured directories are added anew, and this is one of them. -/
  | resynced (hmove : e.Resyncs move) (h : (e.step move).steward.Indexes place)
  /-- Roots are removed, and what was known at the place comes back. -/
  | restored (hmove : e.Removes move) (h : e.Knows place)
  /-- Removable volumes come to be indexed, and there is one at the place. -/
  | enabled {settings : Settings} {spelled : Location} (hmove : move = .adopt settings)
    (hbefore : e.settings.indexRemovable = false) (hafter : settings.indexRemovable = true)
    (h : e.steward.IndexesVolume spelled) (hplace : spelled.canonical = place)

/-! ### What is gained -/

/-- The places at which the crawler is told of new roots, and those that the engine comes to know, are
of one kind. -/
structure Gains (P : Location → Prop) (e e' : Engine) : Prop where
  told : ∃ news, e'.crawled = e.crawled ++ news ∧ ∀ q flags, .added q flags ∈ news → P q
  known : ∀ q, e'.Knows q → e.Knows q ∨ P q

theorem Gains.trans (h : Gains P e e') (h' : Gains P e' e'') : Gains P e e'' where
  told := by
    obtain ⟨news, hnews, hall⟩ := h.told
    obtain ⟨news', hnews', hall'⟩ := h'.told
    refine ⟨news ++ news', by rw [hnews', hnews, List.append_assoc], fun q flags hmem => ?_⟩
    exact (List.mem_append.1 hmem).elim (hall q flags) (hall' q flags)
  known q hq := (h'.known q hq).elim (h.known q) .inr

theorem Gains.mono (h : Gains P e e') (hPQ : ∀ q, P q → Q q) : Gains Q e e' where
  told := by
    obtain ⟨news, hnews, hall⟩ := h.told
    exact ⟨news, hnews, fun q flags hmem => hPQ q (hall q flags hmem)⟩
  known q hq := (h.known q hq).imp_right (hPQ q)

theorem Undisturbed.gains (h : e.Undisturbed e') : Gains P e e' where
  told := ⟨[], by rw [h.crawled, List.append_nil], fun _ _ hmem => absurd hmem List.not_mem_nil⟩
  known q hq := by
    refine .inl (hq.imp (fun hroot => ?_) fun hsuspended => h.watches ▸ hsuspended)
    rw [isRoot_iff_flagsAt?] at hroot ⊢
    rwa [← h.flagsAt? q]

/-- The set of roots changes and what is queued is followed. -/
theorem gains_dispatch (hs : e.roots.WellFormed) (hquiet : e.roots.events = [])
    (hroots : Changes Q e.roots e'.roots)
    (hQ : ∀ place, Q place → place.IsSpelled ∧ P place.canonical) (hcrawled : e'.crawled = e.crawled)
    (hsuspended : ∀ q, e'.watches.isSuspended q = true → e.Knows q) : Gains P e e'.dispatch := by
  obtain ⟨news, hnews, hall⟩ := hroots.adds hs hQ
  rw [hquiet, List.nil_append] at hnews
  have hadded {q : Location} (hq : ∃ flags, .added q flags ∈ e'.roots.events) : P q := by
    obtain ⟨flags, hmem⟩ := hq
    exact hall _ (hnews ▸ hmem) q flags rfl
  refine ⟨⟨news, ?_, fun q flags hmem => hall _ hmem q flags rfl⟩, fun q hq => ?_⟩
  · rw [crawled_dispatch, told, hcrawled, hnews]
  · rcases hq with hroot | hwaits
    · exact (hroots.isRoot_or_added hroot).imp .inl hadded
    · rcases Watches.contains_suspended_followAll hwaits with hold | ⟨into, hevent⟩
      · exact .inl (hsuspended q hold)
      · exact (hroots.isRoot_or_added_of_absorbed hquiet hevent).imp .inl hadded

/-! ### Parts of moves -/

theorem Steady.gains_letGo (h : e.Steady) (requester : Requester) :
    Gains (fun _ => False) e (e.letGo requester) :=
  gains_dispatch h.sound.wellFormed h.quiet (Q := fun _ => False)
    (Watches.changes_release e.watches e.roots requester) (fun _ => False.elim) rfl
    fun _ hq => .inr (Watches.contains_suspended_of_release (s := e.roots) hq)

theorem isSuspended_recovering (h : e.recovering.watches.isSuspended q = true) :
    e.watches.isSuspended q = true := by
  have hsame := Watches.suspended_markStatics
    (e.watches.restoreSuspended (e.steward.syncRoots e.roots)).1 (e.steward.configured.map (·.1))
  refine Watches.contains_suspended_of_restoreSuspended (s := e.steward.syncRoots e.roots) ?_
  rw [← hsame]
  exact h

/-- Configured directories and suspended roots are brought back. -/
theorem Steady.gains_restoreUncovered (h : e.Steady) :
    Gains (fun q => e.steward.Indexes q ∨ e.Knows q) e e.restoreUncovered := by
  have hsync : Changes (fun q => e.steward.Indexes q ∨ e.watches.isSuspended q = true) e.roots
      (e.steward.syncRoots e.roots) := Steward.changes_syncRoots (fun _ => .inl) e.roots
  have hback := Watches.changes_restoreSuspended
    (P := fun q => e.steward.Indexes q ∨ e.watches.isSuspended q = true) e.watches
    (e.steward.syncRoots e.roots) fun place hplace =>
      .inr (OrderedMap.contains_iff.2 (OrderedMap.mem_keys_iff.1 hplace))
  rw [restoreUncovered_eq]
  refine gains_dispatch h.sound.wellFormed h.quiet (hsync.trans hback) (fun place hplace => ?_) rfl
    fun q hq => .inr (isSuspended_recovering hq)
  rcases hplace with hindexes | hsuspended
  · have hcanonical := hindexes.isCanonical h.canonical
    exact ⟨hcanonical.1, .inl (hcanonical.2.symm ▸ hindexes)⟩
  · have hcanonical := h.sound.attached.canonical place (.inr hsuspended)
    exact ⟨hcanonical.1, .inr (.inr (hcanonical.2.symm ▸ hsuspended))⟩

/-- What a change of the settings adds at first: configured directories, where it adds them anew, and
removable volumes, where they come to be indexed. -/
def AddedBy (e : Engine) (change : SettingsChange) (place : Location) : Prop :=
  ((change.touchesDirectories = true ∨ change.touches .enableMonitors = true) ∧
      (e.followed change).steward.Indexes place) ∨
    change.touches .indexRemovable = true ∧ e.settings.indexRemovable = true ∧
      ∃ spelled, e.steward.IndexesVolume spelled ∧ spelled.canonical = place

theorem Steady.gains_applied (h : e.Steady) (change : SettingsChange) :
    Gains (e.AddedBy change) e (e.applied change) := by
  let R (place : Location) : Prop :=
    ((change.touchesDirectories = true ∨ change.touches .enableMonitors = true) ∧
        (e.followed change).steward.Indexes place) ∨
      change.touches .indexRemovable = true ∧ e.settings.indexRemovable = true ∧
        e.steward.IndexesVolume place
  have hroots : Changes R e.roots (e.followed change).roots := by
    rw [roots_followed]
    refine Steward.changes_applySettings (fun htouched place hplace => .inl ⟨htouched, ?_⟩)
      fun htouched hindexed place hplace => .inr ⟨htouched, hindexed, hplace⟩
    rwa [steward_followed]
  have hcanonical : (e.followed change).steward.directories.Canonical :=
    (h.dispatch_followed change).canonical
  have hfollowed : Gains (e.AddedBy change) e (e.followed change).dispatch := by
    refine gains_dispatch h.sound.wellFormed h.quiet hroots (fun place hplace => ?_)
      (crawled_followed e change) fun q hq => .inr ?_
    · rcases hplace with ⟨htouched, hindexes⟩ | ⟨htouched, hindexed, hvolume⟩
      · have hplace := hindexes.isCanonical hcanonical
        exact ⟨hplace.1, .inl ⟨htouched, hplace.2.symm ▸ hindexes⟩⟩
      · exact ⟨Steward.removablePlaces_of_mounts h.sound.mounts place hvolume.1,
          .inr ⟨htouched, hindexed, place, hvolume, rfl⟩⟩
    · rwa [Watches.isSuspended, suspended_followed] at hq
  exact hfollowed.trans (e.undisturbed_applied change).gains

/-! ### Moves -/

theorem Steady.gains_handleRelease (h : e.Steady) (number : Nat) (requester : Requester) :
    Gains (e.Arrival (.handle (.call number (.release requester)))) e
      (e.handleRelease number requester) := by
  let move : EngineMove := .handle (.call number (.release requester))
  let removed := (e.watches.release e.roots requester).2.2
  have hletGo := h.gains_letGo requester
  have hanswer : ((e.letGo requester).restoreAfter removed).Undisturbed
      (e.handleRelease number requester) := (sameView_emit _ rfl).undisturbed rfl
  have hfirst : Gains (e.Arrival move) e (e.letGo requester) := hletGo.mono fun _ => False.elim
  refine Gains.trans ?_ hanswer.gains
  by_cases hnone : removed = []
  · rw [Engine.restoreAfter, hnone]
    exact hfirst
  · have hremoves : e.Removes move := .release hnone
    have hsteward : (e.step move).steward = e.steward := e.steward_handleRelease number requester
    rw [Engine.restoreAfter, if_neg (by simpa using hnone)]
    refine hfirst.trans ((h.letGo requester).gains_restoreUncovered.mono fun q hq => ?_)
    rcases hq with hindexes | hknown
    · exact .resynced (.removal hremoves) (hsteward ▸ hindexes)
    · exact .restored hremoves ((hletGo.known q hknown).resolve_right id)

theorem Steady.gains_handleProbed (h : e.Steady) (number : Nat) {p : ProbedRequest}
    (hp : p.IsGenuine) :
    Gains (e.Arrival (.handle (.probed number (.ok p)))) e (e.handleProbed number (.ok p)) := by
  have hanswer : (e.applyProbed p).1.dispatch.Undisturbed (e.handleProbed number (.ok p)) :=
    (sameView_emit _ rfl).undisturbed rfl
  refine Gains.trans ?_ hanswer.gains
  rcases e.applyProbed_cases p with heq | ⟨a, happly, hholdings, hcrawled⟩
  · rw [heq]
    exact (undisturbed_dispatch h.quiet).gains
  · simp only [holdings, Prod.mk.injEq] at hholdings
    obtain ⟨-, hroots, hwatches⟩ := hholdings
    have hchanges : Changes (fun q => q = p.place ∧ e.AsksFor (.handle (.probed number (.ok p))) q)
        e.roots (e.applyProbed p).1.roots := by
      rw [hroots]
      rcases Watches.apply_cases happly with
        ⟨-, rfl⟩ | ⟨-, owner, -, rfl⟩ | ⟨hdirectory, hfree, -, rfl⟩
      · exact .refl
      · exact .single (.notify p.place true)
      · have hgrants : e.watches.grants p = true := by
          rw [Watches.grants, Watches.allows_of_apply happly, hdirectory]
          rfl
        exact .single (.add .onDemand ⟨rfl, number, p, rfl, rfl, hgrants, hfree⟩)
    refine gains_dispatch h.sound.wellFormed h.quiet hchanges (fun place hplace => ?_) hcrawled
      fun q hq => .inr ?_
    · obtain ⟨rfl, hasks⟩ := hplace
      exact ⟨hp.isCanonical.1, .asked (hp.isCanonical.2.symm ▸ hasks)⟩
    · rw [hwatches, Watches.isSuspended, Watches.suspended_apply happly] at hq
      exact hq

theorem Steady.gains_handleVolume (h : e.Steady) (event : VolumeEvent) :
    Gains (e.Arrival (.handle (.volume event))) e (e.handleVolume event) := by
  have hchanges : Changes (fun q => ∃ m, event = .mounted m ∧ e.steward.IndexesWith m q) e.roots
      (e.steward.followVolume e.roots event).2 :=
    Steward.changes_followVolume (fun m hevent _ hplace => ⟨m, hevent, hplace⟩) e.roots
  refine gains_dispatch h.sound.wellFormed h.quiet hchanges (fun place hplace => ?_) rfl
    fun q hq => .inr hq
  obtain ⟨m, rfl, hindexes⟩ := hplace
  exact ⟨hindexes.isSpelled, .brought rfl hindexes rfl⟩

theorem Steady.gains_adopt (h : e.Steady) (settings : Settings) :
    Gains (e.Arrival (.adopt settings)) e (e.adopt settings) := by
  cases hchange : e.settings.change? settings with
  | none =>
    rw [adopt_of_none hchange]
    exact ((SameView.refl e).undisturbed rfl).gains
  | some change =>
    let e₀ : Engine := { e with settings }
    have h₀ : e₀.Steady := h.with_settings settings
    have hadopt : e.adopt settings = e₀.applyChange change := adopt_of_some hchange
    have hsteward : (e.step (.adopt settings)).steward = (e₀.followed change).steward :=
      (congrArg Engine.steward hadopt).trans (e₀.steward_applyChange change)
    have hadded (q : Location) (hq : e₀.AddedBy change q) : e.Arrival (.adopt settings) q := by
      rcases hq with ⟨htouched, hindexes⟩ | ⟨htouched, hindexed, spelled, hvolume, hplace⟩
      · exact .resynced (.adopt hchange htouched) (hsteward ▸ hindexes)
      · obtain rfl := Settings.change?_eq_some hchange
        have hindexed : settings.indexRemovable = true := hindexed
        refine .enabled rfl ?_ hindexed hvolume hplace
        rw [Settings.touches_changedKeys] at htouched
        simpa [SettingsKey.differs, hindexed] using htouched
    have happlied : Gains (e₀.AddedBy change) e (e₀.applied change) :=
      ⟨(h₀.gains_applied change).told, (h₀.gains_applied change).known⟩
    rw [hadopt]
    refine Gains.trans ?_ (e₀.undisturbed_applyChange change).gains
    by_cases hnone : e₀.removedBy change = []
    · rw [Engine.restoreAfter, hnone]
      exact happlied.mono hadded
    · have hremoves : e.Removes (.adopt settings) := .adopt hchange hnone
      have hback := (h₀.applied change).gains_restoreUncovered
      rw [(e₀.undisturbed_applied change).steward] at hback
      rw [Engine.restoreAfter, if_neg (by simpa using hnone)]
      refine (happlied.mono hadded).trans (hback.mono fun q hq => ?_)
      rcases hq with hindexes | hknown
      · exact .resynced (.removal hremoves) (hsteward ▸ hindexes)
      · exact (happlied.known q hknown).elim (.restored hremoves) (hadded q)

/-- Every root that comes in a move has its reason. -/
theorem Steady.gains_step (h : e.Steady) {move : EngineMove} (hmove : move.IsGenuine) :
    Gains (e.Arrival move) e (e.step move) := by
  rcases move.kinds with hidle | ⟨number, requester, rfl⟩ | ⟨number, p, rfl⟩ | ⟨settings, rfl⟩ |
    ⟨event, rfl⟩
  · exact (undisturbed_step h.quiet hidle).gains
  · exact h.gains_handleRelease number requester
  · exact h.gains_handleProbed number hmove
  · exact h.gains_adopt settings
  · exact h.gains_handleVolume event

/-- What the crawler is told to be added in a run has been added for a reason. -/
theorem Steady.arrivals_run (h : e.Steady) {moves : List EngineMove}
    (hmoves : ∀ move ∈ moves, move.IsGenuine) :
    ∃ news, (e.run moves).crawled = e.crawled ++ news ∧ ∀ q flags, .added q flags ∈ news →
      ∃ earlier move later, moves = earlier ++ move :: later ∧ (e.run earlier).Arrival move q := by
  induction moves using List.reverseRecOn with
  | nil => exact ⟨[], (List.append_nil _).symm, fun _ _ hmem => absurd hmem List.not_mem_nil⟩
  | append_singleton moves move ih =>
    obtain ⟨hearlier, hlast⟩ := List.forall_mem_append.1 hmoves
    obtain ⟨news, hnews, hall⟩ := ih hearlier
    obtain ⟨news', hnews', hall'⟩ :=
      ((h.run hearlier).gains_step (hlast move (List.mem_singleton_self move))).told
    refine ⟨news ++ news', ?_, fun q flags hmem => ?_⟩
    · rw [run_concat, hnews', hnews, List.append_assoc]
    · rcases List.mem_append.1 hmem with hmem | hmem
      · obtain ⟨earlier, first, later, rfl, harrival⟩ := hall q flags hmem
        exact ⟨earlier, first, later ++ [move], by simp, harrival⟩
      · exact ⟨moves, move, [], rfl, hall' q flags hmem⟩

/-! ### What is there afterwards -/

/-- Who asks for a directory without an owner gets a root there. -/
theorem Steady.isRoot_of_asksFor (h : e.Steady) {move : EngineMove} (hmove : move.IsGenuine)
    (hasks : e.AsksFor move q) : (e.step move).roots.isRoot q = true := by
  obtain ⟨number, p, rfl, rfl, hgrants, hfree⟩ := hasks
  have hp : p.place.IsCanonical := ProbedRequest.IsGenuine.isCanonical hmove
  have happly := Watches.apply_of_free h.sound.wellFormed hp hgrants hfree
  have hroots : (e.step (.handle (.probed number (.ok p)))).roots =
      (e.roots.add p.place .onDemand).1.drain.2 := by
    simp only [Engine.step, handle, Engine.handleProbed, Engine.applyProbed, happly]
    rfl
  rw [hroots]
  exact (h.sound.wellFormed.isRoot_add_free hp hfree Watches.isRecursive_onDemand p.place).2
    (.inl rfl)

/-- When roots have been brought back, the configured directories are owned. -/
theorem Steady.isOwned_restoreUncovered (h : e.Steady) (hq : e.steward.Indexes q)
    (hfirm : e.steward.directories.IsFirm q) : e.restoreUncovered.roots.IsOwned q := by
  have hsame (x : Location) : e.restoreUncovered.roots.flagsAt? x = e.recovered.flagsAt? x := by
    rw [restoreUncovered_eq, ← roots_recovering]
    rfl
  have hsynced := Steward.isOwned_syncRoots_of_indexes h.canonical h.sound.wellFormed hq hfirm
  rw [isOwned_congr hsame]
  exact (h.wellFormed_syncRoots.shelters_addEach
    (fun place hplace => (h.isCanonical_of_uncovered place hplace).1)
    fun _ => Watches.isRecursive_onDemand).owned q hsynced

/-- Changed settings that touch the directories, or remove a root, leave the directories owned that
are configured then. -/
theorem Steady.isOwned_adopt (h : e.Steady) {settings : Settings} {change : SettingsChange}
    (hchange : e.settings.change? settings = some change)
    (htouched : removedBy { e with settings } change ≠ [] ∨ change.touchesDirectories = true ∨
      change.touches .enableMonitors = true)
    (hq : (e.adopt settings).steward.Indexes q)
    (hfirm : (e.adopt settings).steward.directories.IsFirm q) :
    (e.adopt settings).roots.IsOwned q := by
  let e₀ : Engine := { e with settings }
  have h₀ : e₀.Steady := h.with_settings settings
  have hadopt : e.adopt settings = e₀.applyChange change := adopt_of_some hchange
  rw [hadopt, e₀.steward_applyChange] at hq hfirm
  rw [hadopt, isOwned_congr (e₀.undisturbed_applyChange change).flagsAt?]
  have hsteward : (e₀.applied change).steward = (e₀.followed change).steward :=
    (e₀.undisturbed_applied change).steward
  by_cases hnone : e₀.removedBy change = []
  · rw [Engine.restoreAfter, hnone]
    refine (isOwned_congr (e₀.undisturbed_applied change).flagsAt?).2 ?_
    rw [steward_followed] at hq hfirm
    have howned := Steward.isOwned_applySettings_of_indexes h₀.canonical h₀.sound.wellFormed
      (Steward.removablePlaces_of_mounts h₀.sound.mounts) (htouched.resolve_left fun h => h hnone)
      hnone hq hfirm
    rw [← roots_followed] at howned
    exact (isOwned_congr fun _ => rfl).2 howned
  · rw [Engine.restoreAfter, if_neg (by simpa using hnone)]
    exact (h₀.applied change).isOwned_restoreUncovered (hsteward ▸ hq) (hsteward ▸ hfirm)

/-- **A move that adds the configured directories anew leaves them owned.** -/
theorem Steady.isOwned_of_resyncs (h : e.Steady) {move : EngineMove} (hmove : e.Resyncs move)
    (hq : (e.step move).steward.Indexes q) (hfirm : (e.step move).steward.directories.IsFirm q) :
    (e.step move).roots.IsOwned q := by
  cases hmove with
  | adopt hchange htouched => exact h.isOwned_adopt hchange (.inr htouched) hq hfirm
  | removal hremoves =>
    cases hremoves with
    | adopt hchange hsome => exact h.isOwned_adopt hchange (.inl hsome) hq hfirm
    | @release number requester hsome =>
      let removed := (e.watches.release e.roots requester).2.2
      have hrestored : (e.handleRelease number requester).roots =
          ((e.letGo requester).restoreAfter removed).roots := rfl
      have hsteward : (e.handleRelease number requester).steward = (e.letGo requester).steward :=
        e.steward_handleRelease number requester
      suffices howned : (e.handleRelease number requester).roots.IsOwned q from howned
      rw [hrestored, Engine.restoreAfter, if_neg (by simpa using hsome)]
      exact (h.letGo requester).isOwned_restoreUncovered (hsteward ▸ hq) (hsteward ▸ hfirm)

end Engine

end IndexControl
