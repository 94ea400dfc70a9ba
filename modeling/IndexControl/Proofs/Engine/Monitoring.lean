import IndexControl.Proofs.Engine.Styling

/-!
# Which roots are monitored as the settings ask for

A change of the settings has to reach all roots that are not there on demand, and it reaches only
those that it adds anew. The others lag behind.

## Main definitions

* `Engine.Lags`: a root that is not there on demand is monitored against the settings.
* `Engine.LeavesBehind`: how a move makes a root lag behind.
* `Engine.LeftBehind`: such a move among some moves, since which the root has lagged behind.

## Main results

* `Engine.Steady.leavesBehind_of_step`: how roots come to lag behind.
* `Engine.lags_iff_left_behind`: which roots lag behind after some moves.
-/

namespace IndexControl

namespace Engine

open RootSet

variable {e : Engine} {b : Bool} {q : Location}

/-- The root at a place is not there on demand, and it is monitored while the settings ask for no
monitoring, or not monitored while they do. -/
structure Lags (e : Engine) (place : Location) : Prop where
  monitored : e.roots.monitored? place = some !e.settings.enableMonitors
  isOnDemand : e.watches.isOnDemand place = false

/-! ### Roots that lag behind -/

/-- A move leaves the root at a place behind the settings. -/
inductive LeavesBehind (e : Engine) (move : EngineMove) (place : Location) : Prop
  /-- Monitoring is switched on or off, and the root is not added anew. -/
  | toggled {settings : Settings} (hmove : move = .adopt settings)
    (hsettings : settings.enableMonitors ≠ e.settings.enableMonitors)
    (hroot : e.roots.isRoot place = true) (hstatic : e.watches.isOnDemand place = false)
    (hleft : ¬e.Readds move place)
  /-- The root was there on demand and is marked, and it is not added anew. -/
  | marked (honDemand : e.watches.isOnDemand place = true)
    (hmonitored : e.roots.monitored? place = some !(e.step move).settings.enableMonitors)
    (hmarks : e.Marks move) (hplace : place ∈ (e.step move).steward.directories.places)
    (hleft : ¬e.Readds move place)
  /-- Monitoring is off, and the root is brought back on demand and marked at once. -/
  | returned (hoff : (e.step move).settings.enableMonitors = false) (h : e.Returns move place)

/-- Only new settings say anew whether roots are to be monitored. -/
theorem enableMonitors_step (e : Engine) (move : EngineMove) :
    (e.step move).settings.enableMonitors = e.settings.enableMonitors ∨
      ∃ settings, move = .adopt settings ∧
        (e.step move).settings.enableMonitors = settings.enableMonitors := by
  cases move with
  | adopt settings => exact .inr ⟨settings, rfl, (settings_adopt_agree e settings).enableMonitors⟩
  | _ => exact .inl (congrArg Settings.enableMonitors (settings_step e rfl))

/-- A root that comes to lag behind in a move has been left behind by it. -/
theorem Steady.leavesBehind_of_step (h : e.Steady) {environment : Environment}
    (hterms : e.Conforms environment) {move : EngineMove} (hmove : move.IsGenuine)
    (hold : ¬e.Lags q) (hq : (e.step move).Lags q) : e.LeavesBehind move q := by
  rcases h.styledBy_step hterms hmove hq.monitored with
    hb | ⟨-, hmarked⟩ | ⟨hb, hreturns⟩ | ⟨hbefore, hleft, honDemand⟩
  · exact absurd hb (Bool.not_ne_self _)
  · rw [hq.isOnDemand] at hmarked
    contradiction
  · exact .returned (by simpa using hb) hreturns
  · cases hmarked : e.watches.isOnDemand q with
    | true =>
      rcases honDemand hmarked with hmarked' | ⟨hmarks, hplace⟩
      · rw [hq.isOnDemand] at hmarked'
        contradiction
      · exact .marked hmarked hbefore hmarks hplace hleft
    | false =>
      have hswitched : (e.step move).settings.enableMonitors ≠ e.settings.enableMonitors :=
        fun heq => hold ⟨heq ▸ hbefore, hmarked⟩
      obtain ⟨settings, hadopt, heq⟩ := (e.enableMonitors_step move).resolve_left hswitched
      exact .toggled hadopt (heq ▸ hswitched) (isRoot_iff_monitored?.2 ⟨_, hbefore⟩) hmarked hleft

/-- Roots that a move adds anew do not lag behind, unless they have been brought back and marked. -/
theorem Steady.returns_of_readds (h : e.Steady) {environment : Environment}
    (hterms : e.Conforms environment) {move : EngineMove} (hmove : move.IsGenuine)
    (hreadds : e.Readds move q) (hq : (e.step move).Lags q) : e.Returns move q := by
  rcases h.styledBy_step hterms hmove hq.monitored with
    hb | ⟨-, hmarked⟩ | ⟨-, hreturns⟩ | ⟨-, hleft, -⟩
  · exact absurd hb (Bool.not_ne_self _)
  · rw [hq.isOnDemand] at hmarked
    contradiction
  · exact hreturns
  · exact absurd hreadds hleft

/-- While the settings ask for it, roots do not cease to be monitored. -/
theorem Steady.monitored_step (h : e.Steady) {environment : Environment}
    (hterms : e.Conforms environment) {move : EngineMove} (hmove : move.IsGenuine)
    (hon : (e.step move).settings.enableMonitors = true)
    (hold : ∀ b, e.roots.monitored? q = some b → b = true)
    (hq : (e.step move).roots.monitored? q = some b) : b = true := by
  rcases h.styledBy_step hterms hmove hq with hb | ⟨hb, -⟩ | ⟨hb, -⟩ | ⟨hbefore, -, -⟩
  · exact hb.trans hon
  · exact hb
  · exact hb
  · exact hold b hbefore

/-! ### Runs -/

section

variable (buffered settings : Settings) (environment : Environment)
  (systemLocations : List Location) (disk : Disk)

theorem monitored?_start
    (hq : (new buffered settings environment systemLocations disk).start.roots.monitored? q =
      some b) :
    b = settings.enableMonitors := by
  let e := (new buffered settings environment systemLocations disk).established
  have hrestyles : Restyles _ settings.enableMonitors _ e.roots :=
    Steward.restyles_establish (w := .new environment systemLocations) (wellFormed_empty .none)
      (fun _ hplace => absurd hplace List.not_mem_nil) settings
  obtain ⟨news, -, hall⟩ := hrestyles.told
  have hchecked : e.roots.monitored? q = some b := by
    rw [← hq, start_eq]
    exact congrArg (Option.map _) (flagsAt?_checkSnapshot e.followDirectories q).symm
  rcases hall q b hchecked with ⟨-, hb⟩ | ⟨-, hempty, -⟩
  · exact hb
  · simp [monitored?, flagsAt?, root?, empty] at hempty

theorem not_lags_start (q : Location) :
    ¬(new buffered settings environment systemLocations disk).start.Lags q := by
  intro hq
  have hb := monitored?_start buffered settings environment systemLocations disk hq.monitored
  rw [settings_start] at hb
  exact Bool.not_ne_self _ hb

/-- One of some moves has left a root behind, and it has lagged behind ever since. -/
structure LeftBehind (e : Engine) (moves : List EngineMove) (place : Location)
    (before : List EngineMove) (move : EngineMove) (after : List EngineMove) : Prop where
  split : moves = before ++ move :: after
  leaves : (e.run before).LeavesBehind move place
  since : ∀ next, next <+: after → (e.run (before ++ move :: next)).Lags place

/-- As long as the settings ask for it, all roots are monitored. -/
theorem monitored?_run {moves : List EngineMove} (hmoves : ∀ move ∈ moves, move.IsGenuine)
    (hsettings : settings.enableMonitors = true)
    (hadopted : ∀ next, .adopt next ∈ moves → next.enableMonitors = true) :
    let e := (new buffered settings environment systemLocations disk).start.run moves
    e.settings.enableMonitors = true ∧
      ∀ q b, e.roots.monitored? q = some b → b = true := by
  induction moves using List.reverseRecOn with
  | nil =>
    have hstart := settings_start buffered settings environment systemLocations disk
    refine ⟨(congrArg Settings.enableMonitors hstart).trans hsettings, fun q b hq => ?_⟩
    exact (monitored?_start buffered settings environment systemLocations disk hq).trans hsettings
  | append_singleton moves move ih =>
    obtain ⟨hearlier, hlast⟩ := List.forall_mem_append.1 hmoves
    obtain ⟨hon, hall⟩ := ih hearlier fun next hnext =>
      hadopted next (List.mem_append_left _ hnext)
    let e := (new buffered settings environment systemLocations disk).start.run moves
    have hsteady : e.Steady :=
      steady_run buffered settings environment systemLocations disk hearlier
    have hterms : e.Conforms environment :=
      (conforms_start buffered settings environment systemLocations disk).run moves
    have hon' : (e.step move).settings.enableMonitors = true := by
      rcases e.enableMonitors_step move with hsame | ⟨next, rfl, hnext⟩
      · exact hsame.trans hon
      · exact hnext.trans (hadopted next (List.mem_append_right _ (List.mem_singleton_self _)))
    rw [run_concat]
    exact ⟨hon', fun q b hq => hsteady.monitored_step hterms
      (hlast move (List.mem_singleton_self move)) hon' (hall q) hq⟩

/-- **Roots are monitored as the settings ask for, unless a move has left them behind.** After the
start and any moves, a root that is not there on demand is monitored against the settings exactly if
one of the moves has left it behind and it has lagged behind ever since. This move has switched
monitoring and not added the root anew, has marked it while it was there on demand and not added it
anew, or has brought it back on demand and marked it at once. A root that the next move adds anew
does not lag behind then, unless it is brought back so. As long as all settings ask for monitoring,
all roots are monitored. -/
theorem lags_iff_left_behind {moves : List EngineMove} (hmoves : ∀ move ∈ moves, move.IsGenuine) :
    let start := (new buffered settings environment systemLocations disk).start
    let e := start.run moves
    (∀ q, e.Lags q ↔ ∃ before move after, start.LeftBehind moves q before move after) ∧
    (∀ move : EngineMove, move.IsGenuine → ∀ q, e.Readds move q → ¬e.Returns move q →
      ¬(e.step move).Lags q) ∧
    (settings.enableMonitors = true → (∀ next, .adopt next ∈ moves → next.enableMonitors = true) →
      ∀ q flags, e.roots.flagsAt? q = some flags → flags.contains .monitor = true) := by
  intro start e
  have hconforms (moves : List EngineMove) : (start.run moves).Conforms environment :=
    (conforms_start buffered settings environment systemLocations disk).run moves
  refine ⟨fun q => ⟨fun hq => ?_, ?_⟩, fun move hmove q hreadds hreturns hq => ?_, ?_⟩
  · obtain ⟨before, move, after, rfl, hold, hsince⟩ := exists_since (P := (Lags · q))
      (not_lags_start buffered settings environment systemLocations disk q) hq
    obtain ⟨hbefore, hlater⟩ := List.forall_mem_append.1 hmoves
    have hsteady := steady_run buffered settings environment systemLocations disk hbefore
    have hstep := hsince [] List.nil_prefix
    rw [run_concat] at hstep
    exact ⟨before, move, after, rfl, hsteady.leavesBehind_of_step (hconforms before)
      (hlater move List.mem_cons_self) hold hstep, hsince⟩
  · rintro ⟨before, move, after, hleft⟩
    have hsince := hleft.since after (List.prefix_refl after)
    rwa [← hleft.split] at hsince
  · have hsteady := steady_run buffered settings environment systemLocations disk hmoves
    exact hreturns (hsteady.returns_of_readds (hconforms moves) hmove hreadds hq)
  · intro hsettings hadopted q flags hflags
    have hall := monitored?_run buffered settings environment systemLocations disk hmoves hsettings
      hadopted
    exact hall.2 q _ (monitored?_eq_some_iff.2 ⟨flags, hflags, rfl⟩)

end

/-- The volume at `/m` comes while roots are to be monitored. Then monitoring is switched off, and
the change of the settings adds the configured directories anew, but no volumes. -/
theorem lags_iff_left_behind_volume :
    let nowhere : Environment := ⟨fun _ => none, none, fun _ => none, fun _ => false⟩
    let settings : Settings := { Settings.default with
      singleDirectories := [], recursiveDirectories := [], indexRemovable := true }
    let volume := Path.ofString "/m"
    let moves : List EngineMove := [.handle (.volume (.mounted ⟨volume, none, true⟩)),
      .adopt { settings with enableMonitors := false }]
    let start := (new settings settings nowhere [] ⟨.empty⟩).start
    (∀ move ∈ moves, move.IsGenuine) ∧
      ∃ before move after, start.LeftBehind moves volume.location before move after := by
  intro nowhere settings volume moves start
  have hmoves : ∀ move ∈ moves, move.IsGenuine := by
    simp only [moves, List.forall_mem_cons]
    exact ⟨trivial, trivial, by simp⟩
  obtain ⟨hiff, -⟩ := lags_iff_left_behind settings settings nowhere [] ⟨.empty⟩ hmoves
  exact ⟨hmoves, (hiff volume.location).1 ⟨by decide, by decide⟩⟩

/-- The volume at `/m` goes on being monitored when monitoring is switched off. -/
theorem monitored_after_switching_off :
    let nowhere : Environment := ⟨fun _ => none, none, fun _ => none, fun _ => false⟩
    let settings : Settings := { Settings.default with
      singleDirectories := [], recursiveDirectories := [], indexRemovable := true }
    let volume := Path.ofString "/m"
    let e := (new settings settings nowhere [] ⟨.empty⟩).start.run
      [.handle (.volume (.mounted ⟨volume, none, true⟩)),
        .adopt { settings with enableMonitors := false }]
    e.settings.enableMonitors = false ∧ e.watches.isOnDemand volume.location = false ∧
      e.roots.flagsAt? volume.location = some (Flags.removableVolume.union .monitor) := by
  decide

end Engine

end IndexControl
