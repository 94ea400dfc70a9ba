import IndexControl.Proofs.Engine.Moves
import IndexControl.Proofs.Steward.Terms

/-!
# What hangs on the settings

The steward, the roots and the records of watches each keep something that the settings decide: the
configured directories, the filters, the restriction of requests and two switches. Each is taken
over under a test of its own on what has changed, and between moves all of them are what the
settings applied last ask for.

## Main definitions

* `Engine.Conforms`: the parts of an engine keep what its settings decide.
* `Engine.SameTerms`: neither the settings nor what hangs on them have changed.
* `EngineMove.adopted?`: the settings that an engine looks at in a move.

## Main results

* `Engine.settings_handle`: events leave the settings alone.
* `Engine.settings_adopt_agree`: an engine takes over the settings that it looks at.
* `Engine.Conforms.adopt`: changed settings reach all parts.
* `Engine.Conforms.step`: every move keeps the parts in line with the settings.
* `Engine.settings_run_agree`: the settings that an engine has after the start and any moves.
-/

namespace IndexControl

/-! ### The restriction of requests -/

namespace Watches

open RootSet

variable (w : Watches)

theorem eligibility_followAll (events : List RootEvent) :
    (w.followAll events).eligibility = w.eligibility := by
  have hfold (w : Watches) (root into : Location) :
      (w.foldInto root into).eligibility = w.eligibility := by
    rw [foldInto]
    cases w.records.find? root with
    | none => rfl
    | some record =>
      simp only
      split_ifs <;> rfl
  induction events generalizing w with
  | nil => rfl
  | cons event events ih =>
    refine (ih (w.follow event)).trans ?_
    cases event with
    | absorbed root into => exact hfold w root into
    | _ => rfl

/-- A request leaves the filters and the restriction of requests as they are. -/
theorem filters_eligibility_apply {s : RootSet} {p : ProbedRequest} {a : Applied}
    (h : w.apply s p = .ok a) :
    a.roots.filters = s.filters ∧ a.watches.eligibility = w.eligibility := by
  have hcount (a : Applied) (requester : Option Requester) :
      (a.countFor requester).watches.eligibility = a.watches.eligibility := by
    cases requester with
    | none => rfl
    | some requester =>
      cases houtcome : a.outcome.root? with
      | none => simp only [Applied.countFor, houtcome]
      | some root =>
        simp only [Applied.countFor, houtcome]
        rfl
  have hcover {a : Applied} (h : w.cover s p.place = .ok a) :
      a.roots.filters = s.filters ∧ a.watches.eligibility = w.eligibility := by
    have hadd := s.filters_add p.place .onDemand
    rw [cover] at h
    split at h
    · obtain rfl := Except.ok.inj h
      exact ⟨rfl, rfl⟩
    · split at h
      · contradiction
      · next hadded =>
        rw [hadded] at hadd
        obtain rfl := Except.ok.inj h
        exact ⟨hadd, rfl⟩
  rw [apply] at h
  split_ifs at h
  · cases hplaced : w.cover s p.place with
    | error cause => simp [hplaced, Except.map] at h
    | ok b =>
      rw [hplaced] at h
      obtain rfl := Except.ok.inj h
      rw [roots_countFor, hcount]
      exact hcover hplaced
  · obtain rfl := Except.ok.inj h
    exact ⟨rfl, rfl⟩

theorem filters_eligibility_release (s : RootSet) (requester : Requester) :
    (w.release s requester).2.1.filters = s.filters ∧
      (w.release s requester).1.eligibility = w.eligibility :=
  ⟨s.filters_removeEach _, rfl⟩

/-- The return of suspended roots leaves the filters and the restriction of requests as they
are. -/
theorem filters_eligibility_restoreSuspended (s : RootSet) :
    (w.restoreSuspended s).2.1.filters = s.filters ∧
      (w.restoreSuspended s).1.eligibility = w.eligibility := by
  have hone (w : Watches) (s : RootSet) (place : Location) :
      (w.restoreOne s place).2.1.filters = s.filters ∧
        (w.restoreOne s place).1.eligibility = w.eligibility := by
    have hadd := s.filters_add place .onDemand
    simp only [restoreOne]
    cases w.suspended.find? place with
    | none => exact ⟨hadd, rfl⟩
    | some record =>
      simp only
      split <;> exact ⟨hadd, rfl⟩
  rw [restoreSuspended]
  generalize w.suspended.keys.filter (fun place => (s.owner? place).isNone) = places
  induction places generalizing w s with
  | nil => exact ⟨rfl, rfl⟩
  | cons place places ih =>
    obtain ⟨hfilters, heligibility⟩ := ih (w.restoreOne s place).1 (w.restoreOne s place).2.1
    obtain ⟨hfilters', heligibility'⟩ := hone w s place
    exact ⟨hfilters.trans hfilters', heligibility.trans heligibility'⟩

end Watches

/-- The settings that an engine looks at in a move. -/
def EngineMove.adopted? : EngineMove → Option Settings
  | .adopt settings => some settings
  | _ => none

theorem EngineMove.eq_adopt {move : EngineMove} {settings : Settings}
    (h : move.adopted? = some settings) : move = .adopt settings := by
  cases move with
  | adopt next => rw [Option.some.inj h]
  | _ => contradiction

namespace Engine

variable {e e' e'' : Engine} {environment : Environment}

/-- The parts of an engine keep what its settings decide. -/
structure Conforms (environment : Environment) (e : Engine) : Prop where
  environment : e.steward.environment = environment
  steward : e.steward = e.steward.under e.settings
  filters : e.roots.filters = Steward.filtersOf e.settings
  eligibility : e.watches.eligibility = e.steward.eligibility e.settings

/-- Neither the settings nor what hangs on them have changed. -/
structure SameTerms (e e' : Engine) : Prop where
  settings : e'.settings = e.settings
  steward : e'.steward = e.steward
  filters : e'.roots.filters = e.roots.filters
  eligibility : e'.watches.eligibility = e.watches.eligibility

theorem SameTerms.refl (e : Engine) : e.SameTerms e := ⟨rfl, rfl, rfl, rfl⟩

theorem SameTerms.trans (h : e.SameTerms e') (h' : e'.SameTerms e'') : e.SameTerms e'' where
  settings := h'.settings.trans h.settings
  steward := h'.steward.trans h.steward
  filters := h'.filters.trans h.filters
  eligibility := h'.eligibility.trans h.eligibility

theorem Conforms.of_sameTerms (h : e.Conforms environment) (hterms : e.SameTerms e') :
    e'.Conforms environment where
  environment := by rw [hterms.steward, h.environment]
  steward := by rw [hterms.steward, hterms.settings, ← h.steward]
  filters := by rw [hterms.filters, hterms.settings, h.filters]
  eligibility := by rw [hterms.eligibility, hterms.steward, hterms.settings, h.eligibility]

/-! ### Parts of moves -/

theorem sameTerms_emit (e : Engine) (effects : List Effect) : e.SameTerms (e.emit effects) :=
  ⟨rfl, rfl, rfl, rfl⟩

theorem sameTerms_dispatch (e : Engine) : e.SameTerms e.dispatch :=
  ⟨rfl, rfl, rfl, Watches.eligibility_followAll ..⟩

theorem sameTerms_flush (e : Engine) (reason : String) (recipient : Option Nat) :
    e.SameTerms (e.flush reason recipient).1 :=
  ⟨rfl, rfl, rfl, rfl⟩

theorem sameTerms_flushIfFull (e : Engine) : e.SameTerms e.flushIfFull := by
  rw [flushIfFull]
  split
  · exact sameTerms_flush e _ _
  · exact .refl e

theorem sameTerms_complete (e : Engine) (c : Completion) : e.SameTerms (e.complete c).1 := by
  rw [complete]
  split <;> exact ⟨rfl, rfl, rfl, rfl⟩

theorem sameTerms_finishBatch (e : Engine) (c : Completion) : e.SameTerms (e.finishBatch c) := by
  have hcomplete := sameTerms_complete e c
  simp only [finishBatch]
  split
  · exact hcomplete.trans (sameTerms_flushIfFull _)
  · exact hcomplete

theorem sameTerms_checkSnapshot (e : Engine) : e.SameTerms e.checkSnapshot := by
  rw [checkSnapshot]
  split
  · exact .refl e
  · next dir hdir =>
    have hcheck : (Snapshot.check e.disk e.roots dir e.watches.isOnDemand).2.1.filters =
        e.roots.filters := by
      simp only [Snapshot.check]
      split
      · rfl
      · split
        · rfl
        · split <;> rfl
    exact ⟨rfl, rfl, hcheck, rfl⟩

theorem sameTerms_saveSnapshot (e : Engine) : e.SameTerms e.saveSnapshot := by
  rw [saveSnapshot]
  split
  · exact .refl e
  · exact ⟨rfl, rfl, rfl, rfl⟩

/-- Following the configured directories restricts requests anew, to the same directories. -/
theorem Conforms.followDirectories (h : e.Conforms environment) :
    e.followDirectories.Conforms environment :=
  ⟨h.environment, h.steward, h.filters, rfl⟩

theorem Conforms.restoreAfter (h : e.Conforms environment) (removed : List Location) :
    (e.restoreAfter removed).Conforms environment := by
  let e₁ : Engine := { e with
    roots := (e.watches.restoreSuspended (e.steward.syncRoots e.roots)).2.1
    watches := (e.watches.restoreSuspended (e.steward.syncRoots e.roots)).1 }
  obtain ⟨hfilters, heligibility⟩ :=
    e.watches.filters_eligibility_restoreSuspended (e.steward.syncRoots e.roots)
  have hrestored : e.SameTerms e₁ :=
    ⟨rfl, rfl, hfilters.trans (e.steward.filters_syncRoots e.roots), heligibility⟩
  rw [Engine.restoreAfter]
  split
  · exact h
  · exact (h.of_sameTerms hrestored).followDirectories.of_sameTerms (sameTerms_dispatch _)

theorem settings_restoreAfter (e : Engine) (removed : List Location) :
    (e.restoreAfter removed).settings = e.settings := by
  rw [restoreAfter]
  split <;> rfl

/-! ### Events -/

theorem sameTerms_applyProbed (e : Engine) (p : ProbedRequest) :
    e.SameTerms (e.applyProbed p).1 := by
  rw [applyProbed]
  cases happly : e.watches.apply e.roots p with
  | error cause => exact .refl e
  | ok a =>
    obtain ⟨hfilters, heligibility⟩ := e.watches.filters_eligibility_apply happly
    have happlied : e.SameTerms { e with roots := a.roots, watches := a.watches } :=
      ⟨rfl, rfl, hfilters, heligibility⟩
    simp only
    cases a.outcome with
    | fileCheck => exact happlied.trans (sameTerms_emit _ _)
    | refreshed root => exact happlied
    | rootAdded root => exact happlied

theorem sameTerms_handleProbed (e : Engine) (number : Nat)
    (result : Except RequestError ProbedRequest) : e.SameTerms (e.handleProbed number result) := by
  cases result with
  | error cause => exact (sameTerms_dispatch e).trans (sameTerms_emit _ _)
  | ok p =>
    exact ((sameTerms_applyProbed e p).trans (sameTerms_dispatch _)).trans (sameTerms_emit _ _)

theorem sameTerms_handleResolved (e : Engine) (number : Nat)
    (result : Except ServiceError Resolved) :
    e.SameTerms (e.handleResolved number result) := by
  cases result with
  | error cause => exact sameTerms_emit e _
  | ok r =>
    have hrecord : (r.record e.roots).filters = e.roots.filters := by
      rw [Resolved.record]
      split
      · rfl
      · exact RootSet.filters_recordVolume ..
    have hrecorded : e.SameTerms { e with roots := r.record e.roots } :=
      ⟨rfl, rfl, hrecord, rfl⟩
    exact hrecorded.trans (sameTerms_emit _ _)

theorem sameTerms_letGo (e : Engine) (requester : Requester) :
    e.SameTerms (e.letGo requester) := by
  obtain ⟨hfilters, heligibility⟩ := e.watches.filters_eligibility_release e.roots requester
  have hreleased : e.SameTerms { e with
      watches := (e.watches.release e.roots requester).1
      roots := (e.watches.release e.roots requester).2.1 } :=
    ⟨rfl, rfl, hfilters, heligibility⟩
  exact hreleased.trans (sameTerms_dispatch _)

theorem Conforms.handleRelease (h : e.Conforms environment) (number : Nat)
    (requester : Requester) : (e.handleRelease number requester).Conforms environment :=
  ((h.of_sameTerms (sameTerms_letGo e requester)).restoreAfter _).of_sameTerms
    (sameTerms_emit _ _)

theorem Conforms.handleCall (h : e.Conforms environment) (number : Nat) (asked : Call) :
    (e.handleCall number asked).Conforms environment := by
  cases asked with
  | release requester => exact h.handleRelease number requester
  | push task =>
    have hpush : e.SameTerms { e with buffer := e.buffer.push task } := ⟨rfl, rfl, rfl, rfl⟩
    exact h.of_sameTerms ((hpush.trans (sameTerms_flushIfFull _)).trans (sameTerms_emit _ _))
  | flush reason =>
    exact h.of_sameTerms ((sameTerms_flush e reason (some number)).trans (sameTerms_emit _ _))
  | index request => exact h.of_sameTerms (sameTerms_emit e _)
  | bufferState file => exact h.of_sameTerms (sameTerms_emit e _)
  | identify file => exact h.of_sameTerms (sameTerms_emit e _)
  | roots => exact h.of_sameTerms (sameTerms_emit e _)

theorem Conforms.handleVolume (h : e.Conforms environment) (event : VolumeEvent) :
    (e.handleVolume event).Conforms environment := by
  obtain ⟨hunder, henvironment⟩ := e.steward.under_followVolume e.roots event h.steward
  have hfollowed : Conforms environment { e with
      steward := (e.steward.followVolume e.roots event).1
      roots := (e.steward.followVolume e.roots event).2 } := by
    constructor
    case environment => exact henvironment.trans h.environment
    case steward => exact hunder
    case filters => exact (e.steward.filters_followVolume e.roots event).trans h.filters
    case eligibility =>
      simp only [Steward.eligibility, Steward.directories_followVolume]
      exact h.eligibility
  exact hfollowed.of_sameTerms (sameTerms_dispatch _)

theorem Conforms.handle (h : e.Conforms environment) (event : EngineEvent) :
    (e.handle event).Conforms environment := by
  cases event with
  | call number asked => exact h.handleCall number asked
  | probed number result => exact h.of_sameTerms (sameTerms_handleProbed e number result)
  | resolved number result => exact h.of_sameTerms (sameTerms_handleResolved e number result)
  | volume event => exact h.handleVolume event

/-- No event changes the settings. -/
theorem settings_handle (e : Engine) (event : EngineEvent) :
    (e.handle event).settings = e.settings := by
  cases event with
  | call number asked =>
    cases asked with
    | release requester =>
      exact (settings_restoreAfter _ _).trans (sameTerms_letGo e requester).settings
    | push task =>
      exact (sameTerms_flushIfFull { e with buffer := e.buffer.push task }).settings
    | _ => rfl
  | probed number result => exact (sameTerms_handleProbed e number result).settings
  | resolved number result => exact (sameTerms_handleResolved e number result).settings
  | volume event => rfl

/-! ### Changed settings -/

theorem settings_followBuffer (e : Engine) (change : SettingsChange) :
    (e.followBuffer change).settings = e.settings := by
  have hset := (sameTerms_flushIfFull
    { e with buffer := e.buffer.setLimit e.settings.bufferLimit.toNat }).settings
  simp only [followBuffer]
  cases change.touches .bufferLimit <;> cases change.touches .flushInterval
  · rfl
  · rfl
  · exact hset
  · exact hset

theorem settings_followed (e : Engine) (change : SettingsChange) :
    (e.followed change).settings = e.settings := by
  simp only [followed]
  split <;> rfl

/-- A change that is applied leaves the settings as they are. -/
theorem settings_applyChange (e : Engine) (change : SettingsChange) :
    (e.applyChange change).settings = e.settings := by
  have hrestored : ((e.applied change).restoreAfter (e.removedBy change)).settings = e.settings := by
    rw [settings_restoreAfter, applied, (sameTerms_dispatch _).settings, settings_followBuffer,
      settings_followed]
  rcases e.applyChange_eq change with heq | heq <;> rw [heq]
  · exact hrestored
  · exact (sameTerms_saveSnapshot _).settings.trans hrestored

/-- An engine that has looked at settings has taken them over. -/
theorem settings_adopt_agree (e : Engine) (settings : Settings) :
    (e.adopt settings).settings.Agree settings := by
  rw [adopt]
  cases hchange : e.settings.change? settings with
  | none => exact Settings.change?_eq_none_iff.1 hchange
  | some change =>
    simp only [settings_applyChange]
    exact .refl settings

theorem Conforms.steward_followed (h : e.Conforms environment) (settings : Settings) :
    (followed { e with settings } ⟨e.settings.changedKeys settings⟩).steward =
      e.steward.under settings := by
  have happlied := e.steward.steward_applySettings e.roots e.settings settings
  rw [← h.steward] at happlied
  exact (Engine.steward_followed _ _).trans happlied

theorem Conforms.filters_followed (h : e.Conforms environment) (settings : Settings) :
    (followed { e with settings } ⟨e.settings.changedKeys settings⟩).roots.filters =
      Steward.filtersOf settings := by
  rw [roots_followed, Steward.filters_applySettings]
  split
  · rfl
  · next hkept =>
    rw [Bool.not_eq_true] at hkept
    rw [h.filters, Steward.filtersOf_congr hkept]

theorem Conforms.eligibility_followed (h : e.Conforms environment) (settings : Settings) :
    (followed { e with settings } ⟨e.settings.changedKeys settings⟩).watches.eligibility =
      (e.steward.under settings).eligibility settings := by
  rw [← h.steward_followed settings]
  simp only [followed]
  split
  · rfl
  · next hkept =>
    rw [Bool.not_eq_true, Bool.or_eq_false_iff] at hkept
    have hsteward := e.steward.steward_applySettings e.roots e.settings settings
    rw [← h.steward] at hsteward
    rw [hsteward, e.steward.eligibility_congr hkept.1 hkept.2, ← h.steward]
    exact h.eligibility

/-- A change of the settings reaches all parts. -/
theorem Conforms.applyChange (h : e.Conforms environment) (settings : Settings) :
    (applyChange { e with settings } ⟨e.settings.changedKeys settings⟩).Conforms environment := by
  let e₀ : Engine := { e with settings }
  let change : SettingsChange := ⟨e.settings.changedKeys settings⟩
  have hsettings : ((e₀.followed change).followBuffer change).settings = settings := by
    rw [settings_followBuffer, settings_followed]
  have hholdings := holdings_followBuffer (e₀.followed change) change
  simp only [holdings, Prod.mk.injEq] at hholdings
  obtain ⟨hkept, hroots, hwatches⟩ := hholdings
  have hsteward := hkept.trans (h.steward_followed settings)
  have hfollowed : ((e₀.followed change).followBuffer change).Conforms environment := by
    constructor
    case environment => exact (congrArg Steward.environment hsteward).trans h.environment
    case steward =>
      rw [hsettings, hsteward]
      rfl
    case filters =>
      rw [hsettings, hroots]
      exact h.filters_followed settings
    case eligibility =>
      rw [hsettings, hsteward, hwatches]
      exact h.eligibility_followed settings
  have hrestored := (hfollowed.of_sameTerms (sameTerms_dispatch _)).restoreAfter
    (e₀.removedBy change)
  rcases e₀.applyChange_eq change with heq | heq <;> rw [heq]
  · exact hrestored
  · exact hrestored.of_sameTerms (sameTerms_saveSnapshot _)

theorem Conforms.adopt (h : e.Conforms environment) (settings : Settings) :
    (e.adopt settings).Conforms environment := by
  rw [Engine.adopt]
  cases hchange : e.settings.change? settings with
  | none => exact h
  | some change =>
    obtain rfl := Settings.change?_eq_some hchange
    exact h.applyChange settings

/-! ### Runs -/

theorem settings_start (buffered settings : Settings) (environment : Environment)
    (systemLocations : List Location) (disk : Disk) :
    (new buffered settings environment systemLocations disk).start.settings = settings :=
  (sameTerms_checkSnapshot _).settings

theorem settings_step (e : Engine) {move : EngineMove} (h : move.adopted? = none) :
    (e.step move).settings = e.settings := by
  cases move with
  | handle event => exact e.settings_handle event
  | finishBatch completion => exact (sameTerms_finishBatch e completion).settings
  | adopt settings => contradiction
  | tick => exact (sameTerms_flush e _ none).settings

/-- The settings of an engine are those that it has looked at last. -/
theorem settings_run_agree (buffered settings : Settings) (environment : Environment)
    (systemLocations : List Location) (disk : Disk) (moves : List EngineMove) :
    ((new buffered settings environment systemLocations disk).start.run moves).settings.Agree
      ((moves.filterMap EngineMove.adopted?).getLastD settings) := by
  induction moves using List.reverseRecOn with
  | nil =>
    rw [run, List.foldl_nil, settings_start]
    exact .refl settings
  | append_singleton moves move ih =>
    rw [run_concat, List.filterMap_append]
    cases hmove : move.adopted? with
    | none =>
      rw [settings_step _ hmove, List.filterMap_cons_none hmove, List.filterMap_nil,
        List.append_nil]
      exact ih
    | some next =>
      rw [List.filterMap_cons_some hmove, List.filterMap_nil, List.getLastD_concat]
      obtain rfl := EngineMove.eq_adopt hmove
      exact settings_adopt_agree _ next

theorem conforms_start (buffered settings : Settings) (environment : Environment)
    (systemLocations : List Location) (disk : Disk) :
    (new buffered settings environment systemLocations disk).start.Conforms environment := by
  let e : Engine := new buffered settings environment systemLocations disk
  let e₁ : Engine := { e with
    steward := (e.steward.establish e.roots settings).1
    roots := (e.steward.establish e.roots settings).2 }
  have hestablished : e₁.followDirectories.Conforms environment :=
    ⟨rfl, rfl, e.steward.filters_establish e.roots settings, rfl⟩
  have hterms := (sameTerms_checkSnapshot e₁.followDirectories).trans (sameTerms_dispatch _)
  exact hestablished.of_sameTerms hterms

/-- Every move keeps the parts in line with the settings. -/
theorem Conforms.step (h : e.Conforms environment) (move : EngineMove) :
    (e.step move).Conforms environment := by
  cases move with
  | handle event => exact h.handle event
  | finishBatch completion => exact h.of_sameTerms (sameTerms_finishBatch e completion)
  | adopt settings => exact h.adopt settings
  | tick => exact h.of_sameTerms (sameTerms_flush e _ none)

theorem Conforms.run (h : e.Conforms environment) (moves : List EngineMove) :
    (e.run moves).Conforms environment := by
  induction moves generalizing e with
  | nil => exact h
  | cons move moves ih => exact ih (h.step move)

end Engine

end IndexControl
