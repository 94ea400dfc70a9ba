import IndexControl.Engine.Run
import IndexControl.Proofs.Watches.Attached

/-!
# What a move of the engine is made of

A move that applies no request is made of a few kinds of parts: the set of roots changes while the
configured directories stay, other directories are taken over, a requester is released, roots are
brought back, and notifications are followed. What each part keeps, the whole engine keeps.

## Main definitions

* `Engine.holdings`: the part of the state that indexing is about.
* `Engine.Upkeep`, `Engine.Upkeeps`: one part of a move, and several in order.
* `EngineMove.IsUpkeep`: the moves that apply no request.
* `Engine.letGo`, `Engine.applied`: the first halves of a release and of a change of the settings.
* `Engine.Sound`: what holds of the roots, the volumes and the records between moves.
* `EngineMove.IsGenuine`: a probe is answered by what probing finds.

## Main results

* `Engine.upkeeps_start`, `Engine.upkeeps_step`: moves are made of such parts.
* `Engine.exists_since`: what holds after a run has come to hold in one of its moves.
* `Engine.Sound.upkeeps`, `Engine.Sound.step`, `Engine.sound_run`: soundness is kept.
-/

namespace IndexControl

theorem IndexRequest.request_of_probe {attributes : Attributes} {cancelled : Bool}
    {request : IndexRequest} {p : ProbedRequest}
    (h : request.probe attributes cancelled = .ok p) : p.request = request := by
  rw [IndexRequest.probe] at h
  split at h
  · contradiction
  · split_ifs at h
    split at h
    · contradiction
    · exact (congrArg ProbedRequest.request (Except.ok.inj h)).symm

/-- A request together with what probing its target finds. -/
def ProbedRequest.IsGenuine (p : ProbedRequest) : Prop :=
  ∃ attributes cancelled, p.request.probe attributes cancelled = .ok p

/-- Probing finds a canonical place. -/
theorem ProbedRequest.IsGenuine.isCanonical {p : ProbedRequest} (h : p.IsGenuine) :
    p.place.IsCanonical := by
  obtain ⟨attributes, cancelled, hprobe⟩ := h
  rw [IndexRequest.probe] at hprobe
  split at hprobe
  · contradiction
  · next place hplace =>
    obtain ⟨path, -, rfl⟩ := Option.map_eq_some_iff.1 hplace
    have heq : path.location.canonical = p.place := by
      split_ifs at hprobe
      split at hprobe
      · contradiction
      · exact congrArg ProbedRequest.place (Except.ok.inj hprobe)
    exact heq ▸ Location.isCanonical_canonical path.location_isSpelled

namespace EngineMove

/-- Whether a move applies no request. -/
def IsUpkeep : EngineMove → Prop
  | .handle (.probed _ (.ok _)) => False
  | _ => True

/-- Whether a move is one that can reach an engine: probes are answered by what probing finds. -/
def IsGenuine : EngineMove → Prop
  | .handle (.probed _ (.ok p)) => p.IsGenuine
  | _ => True

/-- The answer of a probe is genuine. -/
theorem isGenuine_probed (number : Nat) (request : IndexRequest) (attributes : Attributes)
    (cancelled : Bool) :
    IsGenuine (.handle (.probed number (request.probe attributes cancelled))) := by
  cases hprobe : request.probe attributes cancelled with
  | error cause => trivial
  | ok p => exact ⟨attributes, cancelled, by rw [IndexRequest.request_of_probe hprobe, hprobe]⟩

end EngineMove

namespace Engine

open RootSet

variable {e e' e'' : Engine}

/-- What indexing is about: the steward, the roots and the records of who watches them. -/
def holdings (e : Engine) : Steward × RootSet × Watches := (e.steward, e.roots, e.watches)

/-! ### Moves and parts of moves that leave the holdings alone -/

@[simp]
theorem holdings_emit (e : Engine) (effects : List Effect) :
    (e.emit effects).holdings = e.holdings := rfl

@[simp]
theorem holdings_flush (e : Engine) (reason : String) (recipient : Option Nat) :
    (e.flush reason recipient).1.holdings = e.holdings := rfl

@[simp]
theorem holdings_flushIfFull (e : Engine) : e.flushIfFull.holdings = e.holdings := by
  rw [flushIfFull]
  split
  · exact holdings_flush ..
  · rfl

@[simp]
theorem holdings_complete (e : Engine) (c : Completion) :
    (e.complete c).1.holdings = e.holdings := by
  rw [complete]
  split <;> rfl

@[simp]
theorem holdings_finishBatch (e : Engine) (c : Completion) :
    (e.finishBatch c).holdings = e.holdings := by
  simp only [finishBatch]
  split
  · rw [holdings_flushIfFull, holdings_complete]
  · exact holdings_complete e c

@[simp]
theorem holdings_followBuffer (e : Engine) (change : SettingsChange) :
    (e.followBuffer change).holdings = e.holdings := by
  simp only [followBuffer]
  split <;> split <;> simp <;> rfl

@[simp]
theorem holdings_saveSnapshot (e : Engine) : e.saveSnapshot.holdings = e.holdings := by
  rw [saveSnapshot]
  split <;> rfl

/-! ### The parts of moves -/

/-- One part of a move that applies no request. -/
inductive Upkeep (e : Engine) : Engine → Prop
  /-- The set of roots and the volumes change, and the configured directories do not. -/
  | retain {e' : Engine} (hroots : Changes Location.IsSpelled e.roots e'.roots)
    (hmounts : ∀ place, e'.steward.mounts.contains place = true →
      e.steward.mounts.contains place = true ∨ place.IsSpelled)
    (hdirectories : e'.steward.directories = e.steward.directories)
    (hwatches : e'.watches = e.watches) : Upkeep e e'
  /-- The set of roots changes, and the directories that are configured now are followed. -/
  | adopt {e' : Engine} (hroots : Changes Location.IsSpelled e.roots e'.roots)
    (hmounts : e'.steward.mounts = e.steward.mounts) (hwatches : e'.watches = e.watches) :
    Upkeep e e'.followDirectories
  | release (requester : Requester) :
    Upkeep e { e with
      watches := (e.watches.release e.roots requester).1
      roots := (e.watches.release e.roots requester).2.1 }
  /-- Configured and suspended roots are brought back. -/
  | restore :
    Upkeep e (followDirectories { e with
      roots := (e.watches.restoreSuspended (e.steward.syncRoots e.roots)).2.1
      watches := (e.watches.restoreSuspended (e.steward.syncRoots e.roots)).1 })
  | dispatch : Upkeep e e.dispatch

/-- Several parts in order. -/
abbrev Upkeeps : Engine → Engine → Prop := Relation.ReflTransGen Upkeep

/-- Other holdings are not touched. -/
theorem Upkeep.aside (h : e'.holdings = e.holdings) : Upkeep e e' := by
  simp only [holdings, Prod.mk.injEq] at h
  obtain ⟨hsteward, hroots, hwatches⟩ := h
  refine .retain ?_ (fun place => ?_) (congrArg Steward.directories hsteward) hwatches
  · rw [hroots]
  · rw [hsteward]
    exact .inl

theorem upkeeps_aside (h : e'.holdings = e.holdings) : Upkeeps e e' := .single (.aside h)

/-- The set of roots changes and nothing else does. -/
theorem upkeeps_of_changes {s : RootSet} (h : Changes Location.IsSpelled e.roots s)
    (heq : e'.holdings = (e.steward, s, e.watches)) : Upkeeps e e' := by
  simp only [holdings, Prod.mk.injEq] at heq
  obtain ⟨hsteward, hroots, hwatches⟩ := heq
  refine .single (.retain (hroots ▸ h) (fun place => ?_) ?_ hwatches)
  · rw [hsteward]
    exact .inl
  · rw [hsteward]

theorem upkeeps_restoreAfter (e : Engine) (removed : List Location) :
    Upkeeps e (e.restoreAfter removed) := by
  rw [restoreAfter]
  split
  · exact .refl
  · exact .tail (.single .restore) .dispatch

theorem upkeeps_checkSnapshot (e : Engine) : Upkeeps e e.checkSnapshot := by
  rw [checkSnapshot]
  split
  · exact .refl
  · next dir hdir =>
    refine upkeeps_of_changes ?_ rfl
    simp only [Snapshot.check]
    split
    · exact .refl
    · split
      · exact .refl
      · split <;> exact .single .updateAll

/-- The engine when the roots of a requester have gone and before any come back. -/
def letGo (e : Engine) (requester : Requester) : Engine :=
  dispatch { e with
    watches := (e.watches.release e.roots requester).1
    roots := (e.watches.release e.roots requester).2.1 }

theorem upkeeps_letGo (e : Engine) (requester : Requester) : Upkeeps e (e.letGo requester) :=
  .tail (.single (.release requester)) .dispatch

/-- What follows within the release of a requester. -/
theorem upkeeps_of_letGo (e : Engine) (number : Nat) (requester : Requester) :
    Upkeeps (e.letGo requester) (e.handleRelease number requester) :=
  (upkeeps_restoreAfter _ _).trans (upkeeps_aside (holdings_emit ..))

theorem upkeeps_handleRelease (e : Engine) (number : Nat) (requester : Requester) :
    Upkeeps e (e.handleRelease number requester) :=
  (upkeeps_letGo e requester).trans (upkeeps_of_letGo e number requester)

theorem upkeeps_handleCall (e : Engine) (number : Nat) (call : Call) :
    Upkeeps e (e.handleCall number call) := by
  cases call with
  | release requester => exact upkeeps_handleRelease e number requester
  | push task => exact upkeeps_aside (holdings_flushIfFull { e with buffer := e.buffer.push task })
  | index request => exact upkeeps_aside rfl
  | flush reason => exact upkeeps_aside rfl
  | bufferState file => exact upkeeps_aside rfl
  | identify file => exact upkeeps_aside rfl
  | roots => exact upkeeps_aside rfl

theorem upkeeps_handleResolved (e : Engine) (number : Nat)
    (result : Except ServiceError Resolved) : Upkeeps e (e.handleResolved number result) := by
  cases result with
  | error cause => exact upkeeps_aside rfl
  | ok r =>
    have hrecord : Changes Location.IsSpelled e.roots (r.record e.roots) := by
      rw [Resolved.record]
      split
      · exact .refl
      · exact .single (.recordVolume ..)
    exact upkeeps_of_changes hrecord rfl

theorem upkeeps_handleVolume (e : Engine) (event : VolumeEvent) :
    Upkeeps e (e.handleVolume event) := by
  let e' : Engine := { e with
    steward := (e.steward.followVolume e.roots event).1
    roots := (e.steward.followVolume e.roots event).2 }
  suffices h : Upkeep e e' from .tail (.single h) .dispatch
  refine .retain ?_ ?_ ?_ rfl
  · exact Steward.changes_followVolume (fun _ _ _ hplace => hplace.isSpelled) e.roots
  · intro place hplace
    refine (Steward.contains_mounts_followVolume hplace).imp_right ?_
    rintro ⟨path, rfl⟩
    exact path.location_isSpelled
  · exact Steward.directories_followVolume e.roots event

/-! ### The two halves of a change of the settings -/

/-- The engine when a change of the settings has reached the roots and the records of who watches
them. -/
def followed (e : Engine) (change : SettingsChange) : Engine :=
  let (steward, roots, _) := e.steward.applySettings e.roots e.settings change
  let e := { e with steward, roots }
  if change.touchesDirectories || change.touches .requireConfigured then e.followDirectories else e

/-- The engine when a change of the settings has been made known and before any root comes back. -/
def applied (e : Engine) (change : SettingsChange) : Engine :=
  ((e.followed change).followBuffer change).dispatch

/-- The places at which a change of the settings removes roots. -/
def removedBy (e : Engine) (change : SettingsChange) : List Location :=
  (e.steward.applySettings e.roots e.settings change).2.2

/-- A change of the settings is followed, and then what it has uncovered comes back. A snapshot may
be saved. -/
theorem applyChange_eq (e : Engine) (change : SettingsChange) :
    e.applyChange change = (e.applied change).restoreAfter (e.removedBy change) ∨
      e.applyChange change =
        ((e.applied change).restoreAfter (e.removedBy change)).saveSnapshot := by
  simp only [applyChange]
  split
  · exact .inr rfl
  · exact .inl rfl

section Settings

variable (hmounts : ∀ place, e.steward.mounts.contains place = true → place.IsSpelled)

include hmounts

theorem upkeeps_followed (change : SettingsChange) : Upkeeps e (e.followed change) := by
  let e₁ : Engine := { e with
    steward := (e.steward.applySettings e.roots e.settings change).1
    roots := (e.steward.applySettings e.roots e.settings change).2.1 }
  have hroots : Changes Location.IsSpelled e.roots e₁.roots :=
    Steward.changes_applySettings (fun _ _ hplace => hplace.isSpelled) fun _ _ place hplace =>
      Steward.removablePlaces_of_mounts hmounts place hplace.1
  have hsame : e₁.steward.mounts = e.steward.mounts := Steward.mounts_applySettings ..
  simp only [followed]
  split
  · exact .single (.adopt hroots hsame rfl)
  · next hfollow =>
    rw [Bool.not_eq_true, Bool.or_eq_false_iff] at hfollow
    refine .single (.retain hroots (fun place => ?_) ?_ rfl)
    · rw [hsame]
      exact .inl
    · exact Steward.directories_applySettings e.roots e.settings hfollow.1

theorem upkeeps_applied (change : SettingsChange) : Upkeeps e (e.applied change) :=
  (upkeeps_followed hmounts change).trans
    ((upkeeps_aside (holdings_followBuffer _ change)).tail .dispatch)

theorem upkeeps_applyChange (change : SettingsChange) :
    Upkeeps e (e.applyChange change) := by
  have hrestored := (upkeeps_applied hmounts change).trans
    (upkeeps_restoreAfter (e.applied change) (e.removedBy change))
  rcases e.applyChange_eq change with heq | heq <;> rw [heq]
  · exact hrestored
  · exact hrestored.trans (upkeeps_aside (holdings_saveSnapshot _))

theorem upkeeps_adopt (settings : Settings) : Upkeeps e (e.adopt settings) := by
  rw [adopt]
  split
  · exact .refl
  · next change hchange =>
    have haside : Upkeeps e { e with settings } := upkeeps_aside rfl
    exact haside.trans (upkeeps_applyChange (e := { e with settings }) hmounts change)

/-- The start is made of parts like those of later moves. -/
theorem upkeeps_start : Upkeeps e e.start := by
  refine (Relation.ReflTransGen.single (.adopt ?_ rfl rfl)).trans
    ((upkeeps_checkSnapshot _).tail .dispatch)
  exact Steward.changes_establish (fun _ hplace => hplace.isSpelled) fun place hplace =>
    Steward.removablePlaces_of_mounts hmounts place hplace.1

/-- A move that applies no request is made of such parts. -/
theorem upkeeps_step {move : EngineMove} (hmove : move.IsUpkeep) : Upkeeps e (e.step move) := by
  cases move with
  | handle event =>
    cases event with
    | call number asked => exact upkeeps_handleCall e number asked
    | probed number result =>
      cases result with
      | error cause => exact .tail (.single .dispatch) (.aside (holdings_emit ..))
      | ok p => exact hmove.elim
    | resolved number result => exact upkeeps_handleResolved e number result
    | volume event => exact upkeeps_handleVolume e event
  | finishBatch completion => exact upkeeps_aside (holdings_finishBatch e completion)
  | adopt settings => exact upkeeps_adopt hmounts settings
  | tick => exact upkeeps_aside (holdings_flush ..)

end Settings

/-! ### Soundness -/

/-- The set of roots is well-formed, volumes are known by paths that can be spelled, and every
record belongs to a root. -/
structure Sound (e : Engine) : Prop where
  wellFormed : e.roots.WellFormed
  mounts : ∀ place, e.steward.mounts.contains place = true → place.IsSpelled
  attached : e.watches.Attached e.roots

theorem sound_new (buffered settings : Settings) (environment : Environment)
    (systemLocations : List Location) (disk : Disk) :
    (new buffered settings environment systemLocations disk).Sound where
  wellFormed := wellFormed_empty .none
  mounts _ h := Bool.noConfusion h
  attached := Watches.attached_empty _

theorem Sound.followDirectories (h : e.Sound) : e.followDirectories.Sound where
  wellFormed := h.wellFormed
  mounts := h.mounts
  attached := h.attached.of_imp
    (fun q hq => by
      have hcontains := Watches.contains_markStatics e.watches
        (e.steward.configured.map (·.1)) q
      exact hcontains.symm.trans hq)
    fun q hq => by
      have hsame := Watches.suspended_markStatics e.watches (e.steward.configured.map (·.1))
      rw [← hsame]
      exact hq

theorem Sound.retain (h : e.Sound) (hroots : Changes Location.IsSpelled e.roots e'.roots)
    (hmounts : ∀ place, e'.steward.mounts.contains place = true →
      e.steward.mounts.contains place = true ∨ place.IsSpelled)
    (hwatches : e'.watches = e.watches) : e'.Sound where
  wellFormed := hroots.wellFormed h.wellFormed
  mounts place hplace := (hmounts place hplace).elim (h.mounts place) id
  attached := hwatches ▸ h.attached.of_changes hroots

theorem Sound.upkeep (h : e.Sound) (hpart : Upkeep e e') : e'.Sound := by
  cases hpart with
  | retain hroots hmounts hdirectories hwatches => exact h.retain hroots hmounts hwatches
  | adopt hroots hmounts hwatches =>
    exact (h.retain hroots (fun place hplace => .inl (hmounts ▸ hplace))
      hwatches).followDirectories
  | release requester =>
    exact ⟨(changes_removeEach e.roots _).wellFormed h.wellFormed, h.mounts,
      h.attached.release requester⟩
  | restore =>
    have hsync : Changes Location.IsSpelled e.roots (e.steward.syncRoots e.roots) :=
      Steward.changes_syncRoots (fun _ hplace => hplace.isSpelled) e.roots
    have hattached := h.attached.of_changes hsync
    have hsynced := hsync.wellFormed h.wellFormed
    refine Sound.followDirectories ⟨?_, h.mounts, hattached.restoreSuspended hsynced⟩
    refine (Watches.changes_restoreSuspended _ _ fun place hplace => ?_).wellFormed hsynced
    exact (hattached.canonical place
      (.inr (OrderedMap.contains_iff.2 (OrderedMap.mem_keys_iff.1 hplace)))).1
  | dispatch => exact ⟨h.wellFormed.of_flagsAt?_imp fun _ _ hf => hf, h.mounts, h.attached.followAll⟩

theorem Sound.upkeeps (h : e.Sound) (hparts : Upkeeps e e') : e'.Sound := by
  induction hparts with
  | refl => exact h
  | tail _ hpart ih => exact ih.upkeep hpart

/-- Applying a request keeps the engine sound. -/
theorem Sound.applyProbed (h : e.Sound) {p : ProbedRequest} (hp : p.place.IsCanonical) :
    (e.applyProbed p).1.Sound := by
  rw [Engine.applyProbed]
  cases happly : e.watches.apply e.roots p with
  | error cause => exact h
  | ok a =>
    have hsound : Sound { e with roots := a.roots, watches := a.watches } :=
      ⟨(Watches.changes_apply hp.1 happly).wellFormed h.wellFormed, h.mounts,
        h.attached.apply h.wellFormed hp happly⟩
    simp only
    split
    · exact hsound.upkeep (.aside (holdings_emit ..))
    · exact hsound

/-- What follows the application of a request. -/
theorem upkeeps_handleProbed (e : Engine) (number : Nat) (p : ProbedRequest) :
    Upkeeps (e.applyProbed p).1 (e.handleProbed number (.ok p)) :=
  .tail (.single .dispatch) (.aside (holdings_emit ..))

/-- A move is upkeep, or it applies a request and goes on with upkeep. -/
theorem isUpkeep_or_probed (move : EngineMove) :
    move.IsUpkeep ∨ ∃ number p, move = .handle (.probed number (.ok p)) := by
  cases move with
  | handle event =>
    cases event with
    | probed number result =>
      cases result with
      | error cause => exact .inl trivial
      | ok p => exact .inr ⟨number, p, rfl⟩
    | call number asked => exact .inl trivial
    | resolved number result => exact .inl trivial
    | volume event => exact .inl trivial
  | finishBatch completion => exact .inl trivial
  | adopt settings => exact .inl trivial
  | tick => exact .inl trivial

theorem Sound.step (h : e.Sound) {move : EngineMove} (hmove : move.IsGenuine) :
    (e.step move).Sound := by
  rcases isUpkeep_or_probed move with hupkeep | ⟨number, p, rfl⟩
  · exact h.upkeeps (upkeeps_step h.mounts hupkeep)
  · exact (h.applyProbed (ProbedRequest.IsGenuine.isCanonical hmove)).upkeeps
      (upkeeps_handleProbed e number p)

/-! ### Runs -/

/-- What holds after some moves, and does not hold at first, has come to hold in one of them and has
held since. -/
theorem exists_since {P : Engine → Prop} {moves : List EngineMove} (hfirst : ¬P e)
    (h : P (e.run moves)) :
    ∃ before move after, moves = before ++ move :: after ∧ ¬P (e.run before) ∧
      ∀ next, next <+: after → P (e.run (before ++ move :: next)) := by
  induction moves using List.reverseRecOn with
  | nil => exact absurd h hfirst
  | append_singleton moves move ih =>
    by_cases hold : P (e.run moves)
    · obtain ⟨before, first, after, rfl, hnot, hsince⟩ := ih hold
      refine ⟨before, first, after ++ [move], by simp, hnot, fun next hnext => ?_⟩
      rcases List.prefix_concat_iff.1 hnext with rfl | hnext
      · simpa using h
      · exact hsince next hnext
    · refine ⟨moves, move, [], rfl, hold, fun next hnext => ?_⟩
      rw [List.prefix_nil.1 hnext]
      exact h

theorem Sound.run (h : e.Sound) {moves : List EngineMove}
    (hmoves : ∀ move ∈ moves, move.IsGenuine) : (e.run moves).Sound := by
  induction moves generalizing e with
  | nil => exact h
  | cons move moves ih =>
    obtain ⟨hmove, hmoves⟩ := List.forall_mem_cons.1 hmoves
    exact ih (h.step hmove) hmoves

theorem sound_start (buffered settings : Settings) (environment : Environment)
    (systemLocations : List Location) (disk : Disk) :
    (new buffered settings environment systemLocations disk).start.Sound := by
  have hnew := sound_new buffered settings environment systemLocations disk
  exact hnew.upkeeps (upkeeps_start hnew.mounts)

/-- An engine is sound after its start and any genuine moves. -/
theorem sound_run (buffered settings : Settings) (environment : Environment)
    (systemLocations : List Location) (disk : Disk) {moves : List EngineMove}
    (hmoves : ∀ move ∈ moves, move.IsGenuine) :
    ((new buffered settings environment systemLocations disk).start.run moves).Sound :=
  (sound_start buffered settings environment systemLocations disk).run hmoves

end Engine

end IndexControl
