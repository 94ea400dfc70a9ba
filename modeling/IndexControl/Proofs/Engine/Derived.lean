import IndexControl.Engine.Listening
import IndexControl.Proofs.Engine.Writing

/-!
# All that hangs on the settings follows them

The steward, the roots and the records of watches take the settings with which their engine starts
and follow every change from then on. The write buffer is made earlier, and its limit is that of the
settings as they were at this time. Later only a change of the limit reaches it. A change that falls
between the two readings changes nothing for the engine, which has found the new limit in the
settings from its start, and so the buffer keeps the old one until the limit changes again.

## Main results

* `Engine.limit_run_of_forall`, `Engine.limit_run_of_exists`: what has become of the limit after the
  start and any moves.
* `Engine.run_derived`: what all the parts keep then.
* `Engine.limit_missed_at_start`: a change between the two readings is missed.
-/

namespace IndexControl

namespace Engine

/-- Settings with another limit bring it to the buffer. -/
theorem limit_adopt (e : Engine) (next : Settings) :
    (e.adopt next).buffer.outstanding.limit =
      if next.bufferLimit = e.settings.bufferLimit then e.buffer.outstanding.limit
      else next.bufferLimit.toNat := by
  rw [buffer_adopt, WriteBuffer.limit_retune]

theorem limit_step (e : Engine) {move : EngineMove} (h : move.adopted? = none) :
    (e.step move).buffer.outstanding.limit = e.buffer.outstanding.limit := by
  rw [buffer_step, WriteBuffer.limit_follow _ _ h]

section

variable (buffered settings : Settings) (environment : Environment)
  (systemLocations : List Location) (disk : Disk) (moves : List EngineMove)

/-- An engine that has looked only at settings with the limit of its start has this limit in its
settings. -/
theorem bufferLimit_run (hadopted : ∀ next ∈ moves.filterMap EngineMove.adopted?,
      next.bufferLimit = settings.bufferLimit) :
    ((new buffered settings environment systemLocations disk).start.run
      moves).settings.bufferLimit = settings.bufferLimit := by
  rw [(settings_run_agree buffered settings environment systemLocations disk moves).bufferLimit]
  rcases List.mem_cons.1 List.getLastD_mem_cons with hfirst | hlater
  · rw [hfirst]
  · exact hadopted _ hlater

/-- As long as an engine has looked only at settings with the limit of its start, the limit of its
buffer is the one that was read before the start. -/
theorem limit_run_of_forall (hadopted : ∀ next ∈ moves.filterMap EngineMove.adopted?,
      next.bufferLimit = settings.bufferLimit) :
    ((new buffered settings environment systemLocations disk).start.run
      moves).buffer.outstanding.limit = buffered.bufferLimit.toNat := by
  induction moves using List.reverseRecOn with
  | nil =>
    rw [run, List.foldl_nil, buffer_start]
    rfl
  | append_singleton moves move ih =>
    rw [List.filterMap_append, List.forall_mem_append] at hadopted
    obtain ⟨hearlier, hlast⟩ := hadopted
    rw [run_concat]
    cases hmove : move.adopted? with
    | none => rw [limit_step _ hmove, ih hearlier]
    | some next =>
      have hkept := bufferLimit_run buffered settings environment systemLocations disk moves hearlier
      have hnext : next.bufferLimit = settings.bufferLimit :=
        hlast next (List.mem_filterMap.2 ⟨move, List.mem_singleton_self move, hmove⟩)
      obtain rfl := EngineMove.eq_adopt hmove
      rw [step, limit_adopt, hkept, if_pos hnext, ih hearlier]

/-- An engine that has looked at settings with another limit than at its start has the limit of the
settings looked at last. -/
theorem limit_run_of_exists (hadopted : ∃ next ∈ moves.filterMap EngineMove.adopted?,
      next.bufferLimit ≠ settings.bufferLimit) :
    ((new buffered settings environment systemLocations disk).start.run
      moves).buffer.outstanding.limit =
      ((new buffered settings environment systemLocations disk).start.run
        moves).settings.bufferLimit.toNat := by
  induction moves using List.reverseRecOn with
  | nil => simp at hadopted
  | append_singleton moves move ih =>
    have hkept := bufferLimit_run buffered settings environment systemLocations disk moves
    rw [run_concat]
    rw [List.filterMap_append] at hadopted
    generalize (new buffered settings environment systemLocations disk).start.run moves = e at *
    cases hmove : move.adopted? with
    | none =>
      rw [List.filterMap_cons_none hmove, List.filterMap_nil, List.append_nil] at hadopted
      rw [limit_step e hmove, settings_step e hmove, ih hadopted]
    | some next =>
      obtain rfl := EngineMove.eq_adopt hmove
      rw [step, limit_adopt, (e.settings_adopt_agree next).bufferLimit]
      split
      · next hsame =>
        rw [hsame]
        refine ih (by_contra fun hnone => ?_)
        push Not at hnone
        -- Then the limit is still that of the start, before this move and after it.
        obtain ⟨x, hx, hne⟩ := hadopted
        rcases List.mem_append.1 hx with hearlier | hlast
        · exact hne (hnone x hearlier)
        · obtain rfl : x = next := by simpa [EngineMove.adopted?] using hlast
          exact hne (hsame.trans (hkept hnone))
      · rfl

end

/-- **All that hangs on the settings follows them, apart from a limit that was changed at the
start.** After its start and any moves, in whatever order settings, requests, releases, volumes and
writes reach it, an engine has the settings that it has looked at last. Its configured directories
are those that these settings ask for, and so are the filters of its roots. Requests are restricted
to these directories exactly if the settings say so, and the steward knows whether the settings want
roots to be monitored and removable volumes to be indexed.

The limit of the write buffer is that of these settings exactly if the limit was the same when the
settings were read for the buffer and when they were read for the rest of the engine, or the engine
has since looked at settings with another limit. Otherwise it is the limit that was read for the
buffer. -/
theorem run_derived (buffered settings : Settings) (environment : Environment)
    (systemLocations : List Location) (disk : Disk) (moves : List EngineMove) :
    let e := (new buffered settings environment systemLocations disk).start.run moves
    let adopted := moves.filterMap EngineMove.adopted?
    e.settings.Agree (adopted.getLastD settings) ∧
      e.steward.directories =
        .reconcile environment e.settings.singleDirectories e.settings.recursiveDirectories ∧
      e.roots.filters = Steward.filtersOf e.settings ∧
      e.watches.eligibility =
        (if e.settings.requireConfigured then some (.ofDirectories e.steward.directories)
          else none) ∧
      e.steward.enableMonitors = e.settings.enableMonitors ∧
      e.steward.indexRemovable = e.settings.indexRemovable ∧
      e.buffer.outstanding.limit =
        (if ∃ next ∈ adopted, next.bufferLimit ≠ settings.bufferLimit then e.settings
          else buffered).bufferLimit.toNat ∧
      (e.buffer.outstanding.limit = e.settings.bufferLimit.toNat ↔
        buffered.bufferLimit = settings.bufferLimit ∨
          ∃ next ∈ adopted, next.bufferLimit ≠ settings.bufferLimit) := by
  intro e adopted
  have h : e.Conforms environment :=
    (conforms_start buffered settings environment systemLocations disk).run moves
  have hlimit : (∃ next ∈ adopted, next.bufferLimit ≠ settings.bufferLimit) ∧
        e.buffer.outstanding.limit = e.settings.bufferLimit.toNat ∨
      (∀ next ∈ adopted, next.bufferLimit = settings.bufferLimit) ∧
        e.buffer.outstanding.limit = buffered.bufferLimit.toNat := by
    by_cases hall : ∀ next ∈ adopted, next.bufferLimit = settings.bufferLimit
    · exact .inr ⟨hall, limit_run_of_forall _ _ _ _ _ moves hall⟩
    · push Not at hall
      exact .inl ⟨hall, limit_run_of_exists _ _ _ _ _ moves hall⟩
  refine ⟨settings_run_agree buffered settings environment systemLocations disk moves, ?_,
    h.filters, h.eligibility, congrArg Steward.enableMonitors h.steward,
    congrArg Steward.indexRemovable h.steward, ?_, ?_⟩
  · rw [← h.environment]
    exact congrArg Steward.directories h.steward
  · rcases hlimit with ⟨hother, heq⟩ | ⟨hall, heq⟩
    · rw [if_pos hother, heq]
    · rw [if_neg (by push Not; exact hall), heq]
  · rcases hlimit with ⟨hother, heq⟩ | ⟨hall, heq⟩
    · exact iff_of_true heq (.inr hother)
    · have hkept := bufferLimit_run buffered settings environment systemLocations disk moves hall
      have hnone : ¬∃ next ∈ adopted, next.bufferLimit ≠ settings.bufferLimit :=
        fun ⟨next, hnext, hne⟩ => hne (hall next hnext)
      rw [heq, hkept, or_iff_left hnone, UInt64.toNat_inj]

/-- The limit changes from 5 to 7 between the two times that the settings are read. Nothing is left
to be announced then, and the engine has the new limit in its settings and the old one in its
buffer. There the old one stays for as long as the limit is 7. -/
theorem limit_missed_at_start :
    let nowhere : Environment := ⟨fun _ => none, none, fun _ => none, fun _ => false⟩
    let before : SettingsFeed := .ofSettings { Settings.default with
      singleDirectories := [], recursiveDirectories := [], bufferLimit := 5 }
    let after := (before.modify fun s => { s with bufferLimit := 7 }).1
    let l := Listening.launch before.settings after [] nowhere [] ⟨.empty⟩
    l.engine.settings.bufferLimit = 7 ∧ l.engine.buffer.outstanding.limit = 5 ∧
      (l.feed.receive l.seen).1 = .empty ∧ l.isAlert = false ∧ l.calls = [] ∧
      ∀ moves : List EngineMove,
        (∀ next ∈ moves.filterMap EngineMove.adopted?, next.bufferLimit = 7) →
          (l.engine.run moves).buffer.outstanding.limit = 5 := by
  intro nowhere before after l
  refine ⟨by decide, by decide, by decide, rfl, rfl, fun moves hmoves => ?_⟩
  exact limit_run_of_forall before.settings after.settings nowhere [] ⟨.empty⟩ moves hmoves

end Engine

end IndexControl
