import IndexControl.Proofs.Engine.Advances
import IndexControl.Proofs.Engine.Conformity
import IndexControl.Proofs.Steward.Removable

/-!
# Mounted volumes that are left out

A removable volume is added when it comes, or when such volumes come to be indexed. It can be folded
into a root above, or be covered from the start and never have a root of its own. When that cover
goes, configured and suspended roots come back, but volumes do not. So a mounted volume is left out
exactly since a move in which a root there or above was removed, or in which the root of a single
directory above it was made plain.

## Main definitions

* `Engine.Wants`, `Engine.LeavesOut`: a volume is to be indexed, and it is not.
* `Engine.Uncovers`: a move leaves a volume out.
* `Engine.Spared`: what is told keeps a place covered.
* `Engine.LeftOutBy`: the history that explains a volume that is left out.

## Main results

* `Engine.Steady.leavesOut_step`: how a move leaves a volume out.
* `Engine.Steady.isOwned_run`: what is covered stays so.
* `Engine.leavesOut_iff_uncovered`: which volumes are left out after any run.
-/

namespace IndexControl

namespace Engine

open RootSet

variable {e e' : Engine} {environment : Environment} {place : Location}

/-- A removable volume is mounted at a place that may be indexed, and the settings want such volumes
to be indexed. -/
structure Wants (e : Engine) (place : Location) : Prop where
  indexed : e.settings.indexRemovable = true
  mounted : place ∈ e.steward.removablePlaces
  allowed : e.steward.isSystemLocation place = false

/-- A volume is to be indexed, but there is no root at its place and no recursive one above. -/
structure LeavesOut (e : Engine) (place : Location) : Prop extends Wants e place where
  unowned : e.roots.owner? place.canonical = none

/-- What was told explains why a place has no owner: a root there or above was removed, or one
above, that of a single directory, was updated and is plain now. -/
def TellsWhy (e e' : Engine) (place : Location) : Prop :=
  ∃ news, e'.crawled = e.crawled ++ news ∧
    Explains (· ∈ e'.steward.directories.singlePlaces) news e'.roots place.canonical

theorem LeavesOut.not_isOwned (h : e.LeavesOut place) : ¬e.roots.IsOwned place.canonical := by
  rw [IsOwned, h.unowned]
  exact Bool.false_ne_true

theorem Wants.leavesOut (h : e.Wants place) (hfree : ¬e.roots.IsOwned place.canonical) :
    e.LeavesOut place :=
  ⟨h, by simpa [IsOwned] using hfree⟩

theorem Wants.of_same (h : e'.Wants place) (hsettings : e'.settings = e.settings)
    (hsteward : e'.steward = e.steward) : e.Wants place :=
  ⟨hsettings ▸ h.indexed, hsteward ▸ h.mounted, hsteward ▸ h.allowed⟩

/-! ### Moves by which a volume comes to be wanted -/

/-- A volume that a volume event makes one to be indexed has an owner then. -/
theorem Steady.wants_handleVolume (h : e.Steady) (hc : e.Conforms environment) {event : VolumeEvent}
    (hwants : (e.handleVolume event).Wants place) :
    e.Wants place ∨ (e.handleVolume event).roots.IsOwned place.canonical := by
  have hallowed : e.steward.isSystemLocation place = false := by
    have hsystem := e.steward.systemLocations_followVolume e.roots event
    have hafter : (e.steward.followVolume e.roots event).1.isSystemLocation place = false :=
      hwants.allowed
    rwa [Steward.isSystemLocation, hsystem] at hafter
  rcases Steward.mem_removablePlaces_followVolume hwants.mounted with hmounted | ⟨m, rfl, hm, rfl⟩
  · exact .inl ⟨hwants.indexed, hmounted, hallowed⟩
  · have hindexed : e.steward.indexRemovable = true :=
      (congrArg Steward.indexRemovable hc.steward).trans hwants.indexed
    exact .inr (Steward.isOwned_mount h.sound.wellFormed hm hindexed hallowed)

/-- When changed settings make volumes ones to be indexed, what comes back afterwards explains which
of them have no owner. -/
theorem Steady.wants_adopt (h : e.Steady) (hc : e.Conforms environment) {settings : Settings}
    (hquiet : (e.adopt settings).roots.events = []) (hwants : (e.adopt settings).Wants place) :
    e.Wants place ∨ (e.adopt settings).roots.IsOwned place.canonical ∨
      e.TellsWhy (e.adopt settings) place := by
  rw [Engine.adopt] at hwants hquiet ⊢
  cases hchange : e.settings.change? settings with
  | none =>
    rw [hchange] at hwants
    exact .inl hwants
  | some change =>
    rw [hchange] at hwants hquiet
    obtain rfl := Settings.change?_eq_some hchange
    let e₀ : Engine := { e with settings }
    let change : SettingsChange := ⟨e.settings.changedKeys settings⟩
    have h₀ : e₀.Steady := h.with_settings settings
    have hsteward : (e₀.applyChange change).steward = e.steward.under settings :=
      (e₀.steward_applyChange change).trans (hc.steward_followed settings)
    have hindexed : settings.indexRemovable = true := by
      have hafter := hwants.indexed
      rwa [show (e₀.applyChange change).settings = settings from e₀.settings_applyChange change]
        at hafter
    have hmounted : place ∈ e.steward.removablePlaces := by
      have hafter := hwants.mounted
      rw [hsteward] at hafter
      exact hafter
    have hallowed : e.steward.isSystemLocation place = false := by
      have hafter := hwants.allowed
      rw [hsteward] at hafter
      exact hafter
    by_cases hbefore : e.settings.indexRemovable = true
    · exact .inl ⟨hbefore, hmounted, hallowed⟩
    · have htouched : change.touches .indexRemovable = true := by
        simp [change, Settings.touches_changedKeys, SettingsKey.differs, hindexed, hbefore]
      have howned : (e₀.followed change).roots.IsOwned place.canonical := by
        rw [roots_followed]
        exact Steward.isOwned_applySettings h.sound.wellFormed
          (Steward.removablePlaces_of_mounts h.sound.mounts) htouched hindexed hmounted hallowed
      obtain ⟨news, hnews, -⟩ := h₀.advances_followed change
      obtain ⟨news', hnews', hrevises⟩ := h₀.advances_applyChange change
      refine .inr ((hrevises.owned _ howned).imp_right fun hexplains => ⟨news ++ news', ?_, ?_⟩)
      · have htold : (e₀.applyChange change).told = e.told ++ (news ++ news') := by
          rw [hnews', hnews, List.append_assoc]
          rfl
        rwa [told, told, hquiet, h.quiet, List.append_nil, List.append_nil] at htold
      · simp only [steward_applyChange]
        exact hexplains.append_left news

/-- A volume that a move makes one to be indexed has an owner then, or what is told in the move
explains why not. -/
theorem Steady.wants_step (h : e.Steady) (hc : e.Conforms environment) {move : EngineMove}
    (hquiet : (e.step move).roots.events = []) (hwants : (e.step move).Wants place) :
    e.Wants place ∨ (e.step move).roots.IsOwned place.canonical ∨
      e.TellsWhy (e.step move) place := by
  rcases move.kinds with hidle | ⟨number, requester, rfl⟩ | ⟨number, p, rfl⟩ | ⟨settings, rfl⟩ |
    ⟨event, rfl⟩
  · have hsettings : (e.step move).settings = e.settings := by
      refine settings_step e ?_
      cases move with
      | adopt settings => exact hidle.elim
      | _ => rfl
    exact .inl (hwants.of_same hsettings (undisturbed_step h.quiet hidle).steward)
  · exact .inl (hwants.of_same (settings_step e rfl) (e.steward_handleRelease number requester))
  · exact .inl (hwants.of_same (settings_step e rfl) (e.steward_applyProbed p))
  · exact h.wants_adopt hc hquiet hwants
  · exact (h.wants_handleVolume hc hwants).imp_right .inl

/-! ### Moves -/

/-- A move leaves owned places owned, or what is told in the move explains why not. -/
theorem Steady.isOwned_step (h : e.Steady) {move : EngineMove} (hmove : move.IsGenuine)
    (hquiet : (e.step move).roots.events = []) :
    let e' := e.step move
    ∃ news, e'.crawled = e.crawled ++ news ∧ ∀ q, e.roots.IsOwned q →
      e'.roots.IsOwned q ∨ Explains (· ∈ e'.steward.directories.singlePlaces) news e'.roots q := by
  intro e'
  by_cases hreturn : move.IsReturn
  · have hidle : move.IsIdle := by
      cases move with
      | handle event => cases event <;> trivial
      | _ => trivial
    have hsame := undisturbed_step h.quiet hidle
    exact ⟨[], by rw [hsame.crawled, List.append_nil],
      fun q howned => .inl ((isOwned_congr hsame.flagsAt?).2 howned)⟩
  · obtain ⟨news, hnews, hrevises⟩ := h.advances_step hmove hreturn
    rw [told, told, hquiet, h.quiet, List.append_nil, List.append_nil] at hnews
    exact ⟨news, hnews, hrevises.owned⟩

/-- A move leaves out only such volumes as were left out before, and others for which what is told
in the move explains why. -/
theorem Steady.leavesOut_step (h : e.Steady) (hc : e.Conforms environment) {move : EngineMove}
    (hmove : move.IsGenuine) (hquiet : (e.step move).roots.events = [])
    (hout : (e.step move).LeavesOut place) :
    e.LeavesOut place ∨ e.TellsWhy (e.step move) place := by
  rcases h.wants_step hc hquiet hout.toWants with hwants | howned | htells
  · by_cases howned : e.roots.IsOwned place.canonical
    · obtain ⟨news, hnews, hkept⟩ := h.isOwned_step hmove hquiet
      exact .inr ⟨news, hnews, (hkept _ howned).resolve_left hout.not_isOwned⟩
    · exact .inl (hwants.leavesOut howned)
  · exact absurd howned hout.not_isOwned
  · exact .inr htells

/-- A move leaves out a volume that was not left out before, and what is told in it explains why. -/
structure Uncovers (e : Engine) (move : EngineMove) (place : Location) : Prop where
  before : ¬e.LeavesOut place
  after : (e.step move).LeavesOut place
  told : e.TellsWhy (e.step move) place

/-- One of some moves has uncovered a volume, and the later ones leave it out. -/
structure LeftOutBy (e : Engine) (moves : List EngineMove) (place : Location)
    (before : List EngineMove) (move : EngineMove) (after : List EngineMove) : Prop where
  split : moves = before ++ move :: after
  uncovers : (e.run before).Uncovers move place
  since : ∀ next, next <+: after → (e.run (before ++ move :: next)).LeavesOut place

/-! ### Places that stay covered -/

/-- What is told keeps a place covered: no root there or above is removed, and none above is
updated. -/
def Spared (q : Location) (news : List RootEvent) : Prop :=
  ∀ event ∈ news, (∀ root, event.removed? = some root → q.startsWith root = false) ∧
    ∀ above, event = .updated above → q.isBelow above = false

theorem Spared.not_explains {P : Location → Prop} {s : RootSet} {q : Location}
    {news : List RootEvent} (h : Spared q news) : ¬Explains P news s q := by
  rintro (⟨event, hevent, root, hremoved, hq⟩ | ⟨above, hq, -, -, hevent⟩)
  · exact Bool.noConfusion (((h event hevent).1 root hremoved).symm.trans hq)
  · exact Bool.noConfusion (((h _ hevent).2 above rfl).symm.trans hq)

/-- A place stays owned as long as what is told keeps it covered. -/
theorem Steady.isOwned_run (h : e.Steady) {moves : List EngineMove}
    (hmoves : ∀ move ∈ moves, move.IsGenuine) :
    ∃ news, (e.run moves).crawled = e.crawled ++ news ∧
      ∀ q, e.roots.IsOwned q → Spared q news → (e.run moves).roots.IsOwned q := by
  induction moves generalizing e with
  | nil => exact ⟨[], (List.append_nil _).symm, fun _ howned _ => howned⟩
  | cons move moves ih =>
    obtain ⟨hmove, hlater⟩ := List.forall_mem_cons.1 hmoves
    have hquiet := quiet_step h.quiet move
    obtain ⟨first, hfirst, hkept⟩ := h.isOwned_step hmove hquiet
    obtain ⟨rest, hrest, hend⟩ := ih (h.step hmove) hlater
    refine ⟨first ++ rest, ?_, fun q howned hspared => ?_⟩
    · rw [← List.append_assoc, ← hfirst]
      exact hrest
    · obtain ⟨hspared, hspared'⟩ := List.forall_mem_append.1 hspared
      exact hend q ((hkept q howned).resolve_right (Spared.not_explains hspared)) hspared'

/-! ### Runs -/

section

variable (buffered settings : Settings) (environment : Environment)
  (systemLocations : List Location) (disk : Disk)

/-- At the start no volume is mounted. -/
theorem not_leavesOut_start :
    ¬(new buffered settings environment systemLocations disk).start.LeavesOut place := by
  intro hout
  have hnone : ∀ move ∈ ([] : List EngineMove), ¬move.IsVolume :=
    fun _ h => absurd h List.not_mem_nil
  have hmounts :
      (new buffered settings environment systemLocations disk).start.steward.mounts = .empty :=
    mounts_run buffered settings environment systemLocations disk hnone
  have hmounted := hout.mounted
  rw [Steward.removablePlaces_eq_nil hmounts] at hmounted
  exact List.not_mem_nil hmounted

/-- A volume that is left out after some moves has been uncovered by one of them. -/
theorem leftOutBy_of_run {moves : List EngineMove} (hmoves : ∀ move ∈ moves, move.IsGenuine)
    (hout : ((new buffered settings environment systemLocations disk).start.run moves).LeavesOut
      place) :
    ∃ before move after,
      (new buffered settings environment systemLocations disk).start.LeftOutBy moves place before
        move after := by
  obtain ⟨before, move, after, rfl, hold, hsince⟩ := exists_since (P := (LeavesOut · place))
    (not_leavesOut_start buffered settings environment systemLocations disk) hout
  obtain ⟨hbefore, hlater⟩ := List.forall_mem_append.1 hmoves
  have hsteady := steady_run buffered settings environment systemLocations disk hbefore
  have hconforms := (conforms_start buffered settings environment systemLocations disk).run before
  have hstep := hsince [] List.nil_prefix
  rw [run_concat] at hstep
  have htells := (hsteady.leavesOut_step hconforms (hlater move List.mem_cons_self)
    (quiet_step hsteady.quiet move) hstep).resolve_left hold
  exact ⟨before, move, after, rfl, ⟨hold, hstep, htells⟩, hsince⟩

/-- **A mounted volume is indexed until its cover goes.** In a run from the start:

* a removable volume that comes while such volumes are to be indexed is covered at once: there is a
  root at its place or a recursive one above;
* what is covered stays so as long as the crawler is not told that a root there or above is removed,
  or that one above is updated;
* a removable volume that is to be indexed is left out exactly where a move has uncovered it and
  nothing has covered it since. In that move the crawler is told that a root there or above is
  removed, or that one above, that of a single directory and plain now, is updated. -/
theorem leavesOut_iff_uncovered {moves : List EngineMove}
    (hmoves : ∀ move ∈ moves, move.IsGenuine) :
    let start := (new buffered settings environment systemLocations disk).start
    let e := start.run moves
    (∀ m : Mount, e.settings.indexRemovable = true → m.removable = true →
      e.steward.isSystemLocation m.path.location = false →
      ((e.step (.handle (.volume (.mounted m)))).roots.owner? m.path.location.canonical).isSome =
        true) ∧
    (∀ before after place news, moves = before ++ after →
      ((start.run before).roots.owner? place).isSome = true →
      e.crawled = (start.run before).crawled ++ news → Spared place news →
      (e.roots.owner? place).isSome = true) ∧
    ∀ place, e.LeavesOut place ↔
      ∃ before move after, start.LeftOutBy moves place before move after := by
  intro start e
  refine ⟨?_, ?_, fun place =>
    ⟨leftOutBy_of_run buffered settings environment systemLocations disk hmoves, ?_⟩⟩
  · intro m hindexed hremovable hallowed
    have hconforms : e.Conforms environment :=
      (conforms_start buffered settings environment systemLocations disk).run moves
    have hsteward : e.steward.indexRemovable = true :=
      (congrArg Steward.indexRemovable hconforms.steward).trans hindexed
    exact Steward.isOwned_mount
      (steady_run buffered settings environment systemLocations disk hmoves).sound.wellFormed
      hremovable hsteward hallowed
  · intro before after place news hsplit howned hnews hspared
    rw [hsplit] at hmoves
    obtain ⟨hbefore, hafter⟩ := List.forall_mem_append.1 hmoves
    obtain ⟨news', hnews', hkept⟩ :=
      (steady_run buffered settings environment systemLocations disk hbefore).isOwned_run hafter
    have hrun : e = (start.run before).run after := by
      simp only [e, hsplit, run, List.foldl_append]
    rw [hrun] at hnews ⊢
    obtain rfl := List.append_cancel_left (hnews'.symm.trans hnews)
    exact hkept place howned hspared
  · rintro ⟨before, move, after, hleft⟩
    have hsince := hleft.since after (List.prefix_refl after)
    rwa [← hleft.split] at hsince

end

/-- The volume at `/m/v` is folded into the root of `x` at `/m`, and that goes with `x`. -/
theorem leavesOut_iff_uncovered_released :
    let nowhere : Environment := ⟨fun _ => none, none, fun _ => none, fun _ => false⟩
    let settings : Settings := { Settings.default with
      singleDirectories := [], recursiveDirectories := [], indexRemovable := true }
    let volume := (Path.ofString "/m/v").location
    let directory := (Path.ofString "/m").location
    let attributes := Attributes.empty.setFile directory (.known ⟨.directory, none, none, false⟩)
    let request : IndexRequest := .directory "/m" (some "x")
    let moves : List EngineMove := [.handle (.volume (.mounted ⟨Path.ofString "/m/v", none, true⟩)),
      .handle (.call 1 (.index request)), .handle (.probed 1 (request.probe attributes false)),
      .handle (.call 2 (.release "x"))]
    (∀ move ∈ moves, move.IsGenuine) ∧ ∃ before move after,
      (new settings settings nowhere [] ⟨.empty⟩).start.LeftOutBy moves volume before move
        after := by
  intro nowhere settings volume directory attributes request moves
  have hmoves : ∀ move ∈ moves, move.IsGenuine := by
    simp only [moves, List.forall_mem_cons]
    exact ⟨trivial, trivial, EngineMove.isGenuine_probed .., trivial, by simp⟩
  obtain ⟨-, -, hiff⟩ := leavesOut_iff_uncovered settings settings nowhere [] ⟨.empty⟩ hmoves
  exact ⟨hmoves, (hiff volume).1 ⟨⟨by decide, by decide, by decide⟩, by decide⟩⟩

/-- A mounted volume need not be indexed: nothing covers `/m/v` any more when the root of `x` at
`/m`, into which it was folded, has gone with `x`. -/
theorem not_indexed_after_release :
    let nowhere : Environment := ⟨fun _ => none, none, fun _ => none, fun _ => false⟩
    let settings : Settings := { Settings.default with
      singleDirectories := [], recursiveDirectories := [], indexRemovable := true }
    let volume := (Path.ofString "/m/v").location
    let directory := (Path.ofString "/m").location
    let attributes := Attributes.empty.setFile directory (.known ⟨.directory, none, none, false⟩)
    let request : IndexRequest := .directory "/m" (some "x")
    let mounted := (new settings settings nowhere [] ⟨.empty⟩).start.step
      (.handle (.volume (.mounted ⟨Path.ofString "/m/v", none, true⟩)))
    let e := mounted.run [.handle (.call 1 (.index request)),
      .handle (.probed 1 (request.probe attributes false)), .handle (.call 2 (.release "x"))]
    e.settings.indexRemovable = true ∧ e.steward.removablePlaces = [volume] ∧
      e.steward.isSystemLocation volume = false ∧ mounted.roots.places = [volume] ∧
      e.roots.places = [] ∧ e.roots.owner? volume.canonical = none := by
  decide

end Engine

end IndexControl
