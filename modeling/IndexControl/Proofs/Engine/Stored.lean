import IndexControl.Proofs.Engine.Requested
import IndexControl.Proofs.Engine.Unasked
import IndexControl.Proofs.Snapshot.Stored

/-!
# The stored snapshot and the live roots

The engine compares the stored snapshot with its roots at the start, and stores it anew when a
change of the settings touches the directories or the filters. In between, a change of whether roots
are monitored gives all of them other flags and adds the directories again, and the stored snapshot
stays. So it is that of the live roots only as long as the roots are monitored as they were when it
was stored and no root has come that was missing then, and a restart finds it right exactly if it
was taken of complete roots that are monitored as they still are.

## Main definitions

* `Engine.stores`, `Engine.lastStored`: the moves that store the snapshot, and the engine after the
  last of them.
* `Engine.unchecked`: an engine at its start, just before it looks at the stored snapshot.
* `Engine.Since`: what is left of the roots when the snapshot was stored.
* `Engine.Kept`: the snapshot is stored, and where.

## Main results

* `Engine.kept_start`, `Engine.Kept.step`, `Engine.Kept.run`: which snapshot is stored.
* `Engine.Since.flagsAt?_eq_iff`: when the roots are those of the time when it was stored.
* `Engine.stored_run`: all of this for the engine after its start and any moves.
* `Engine.stored_run_ne`: the stored snapshot can be another one.
-/

namespace IndexControl

namespace Engine

open RootSet

variable {w : Steward} {e e' saved : Engine} {dir : Path}

/-- Whether a move has the snapshot stored whatever it was: the settings that it brings touch the
directories or the filters. -/
def stores (e : Engine) : EngineMove → Bool
  | .adopt settings =>
    let change : SettingsChange := ⟨e.settings.changedKeys settings⟩
    change.touchesDirectories || change.touchesFilters
  | _ => false

/-- The engine after the last of some moves that stored the snapshot, or before all of them. -/
def lastStored (e : Engine) (moves : List EngineMove) : Engine :=
  (moves.foldl (fun (t : Engine × Engine) move =>
    (if t.2.stores move then t.2.step move else t.1, t.2.step move)) (e, e)).1

/-- An engine at its start, just before it looks at the stored snapshot. -/
def unchecked (e : Engine) : Engine := e.established.followDirectories

theorem lastStored_concat (e : Engine) (moves : List EngineMove) (move : EngineMove) :
    e.lastStored (moves ++ [move]) =
      if (e.run moves).stores move then e.run (moves ++ [move]) else e.lastStored moves := by
  have hlast : (moves.foldl (fun (t : Engine × Engine) move =>
      (if t.2.stores move then t.2.step move else t.1, t.2.step move)) (e, e)).2 = e.run moves := by
    induction moves using List.reverseRecOn with
    | nil => rfl
    | append_singleton moves move ih => rw [List.foldl_concat, ih, run_concat]
  rw [lastStored, List.foldl_concat, hlast, run_concat]
  rfl

theorem places_eq_nil_iff (s : RootSet) : s.places = [] ↔ ∀ q, s.flagsAt? q = none := by
  simp [List.eq_nil_iff_forall_not_mem, mem_places_iff, flagsAt?, Option.eq_none_iff_forall_ne_some]

/-! ### Snapshots -/

/-- The flags of the roots, the filters and the records decide what the snapshot is. -/
theorem snapshot_congr (hflags : ∀ q, e'.roots.flagsAt? q = e.roots.flagsAt? q)
    (hfilters : e'.roots.filters = e.roots.filters) (hwatches : e'.watches = e.watches) :
    e'.snapshot = e.snapshot := by
  rw [snapshot, snapshot, hwatches]
  exact Snapshot.ofRoots_congr (fun q => by rw [hflags]) hfilters

theorem Unasked.snapshot_eq (h : Unasked w e) : e.snapshot = .ofRoots e.roots fun _ => false := by
  have hnone : e.watches.isOnDemand = fun _ => false := funext h.blank.isOnDemand
  rw [snapshot, hnone]

theorem Unasked.isSpelled (h : Unasked w e) {q : Location} {f : Flags}
    (hf : e.roots.flagsAt? q = some f) : q.IsSpelled := by
  obtain ⟨lost, hfollows⟩ := h.follows
  obtain ⟨-, hplace, -⟩ := Steward.wanted?_eq_some (hfollows.wanted?_eq_some hf)
  exact ((w.canonical_directoriesOf e.settings).isCanonical hplace).1

theorem Unasked.snapshot_eq_iff (h : Unasked w e) (h' : Unasked w e')
    (hfilters : e.roots.filters = e'.roots.filters) :
    e.snapshot = e'.snapshot ↔ ∀ q, e.roots.flagsAt? q = e'.roots.flagsAt? q := by
  rw [h.snapshot_eq, h'.snapshot_eq]
  exact Snapshot.ofRoots_eq_iff (fun _ _ => h.isSpelled) (fun _ _ => h'.isSpelled) hfilters

/-! ### The disk -/

theorem disk_flushIfFull (e : Engine) : e.flushIfFull.disk = e.disk := by
  rw [flushIfFull]
  split <;> rfl

theorem disk_complete (e : Engine) (c : Completion) : (e.complete c).1.disk = e.disk := by
  rw [complete]
  split <;> rfl

theorem disk_restoreAfter (e : Engine) (removed : List Location) :
    (e.restoreAfter removed).disk = e.disk := by
  rw [restoreAfter]
  split <;> rfl

/-- Only changed settings reach the disk. -/
theorem disk_step {move : EngineMove} (h : move.adopted? = none) : (e.step move).disk = e.disk := by
  cases move with
  | handle event =>
    cases event with
    | call number asked =>
      cases asked with
      | release requester => exact disk_restoreAfter _ _
      | push task => exact disk_flushIfFull { e with buffer := e.buffer.push task }
      | _ => rfl
    | probed number result =>
      cases result with
      | error cause => rfl
      | ok p =>
        have happlied : (e.applyProbed p).1.disk = e.disk := by
          rw [applyProbed]
          split
          · rfl
          · split <;> rfl
        exact happlied
    | resolved number result => cases result <;> rfl
    | volume event => rfl
  | finishBatch completion =>
    simp only [step, finishBatch]
    split
    · exact (disk_flushIfFull _).trans (disk_complete e completion)
    · exact disk_complete e completion
  | adopt settings => contradiction
  | tick => rfl

theorem disk_followBuffer (e : Engine) (change : SettingsChange) :
    (e.followBuffer change).disk = e.disk := by
  have hset := disk_flushIfFull
    { e with buffer := e.buffer.setLimit e.settings.bufferLimit.toNat }
  simp only [followBuffer]
  cases change.touches .bufferLimit <;> cases change.touches .flushInterval
  · rfl
  · rfl
  · exact hset
  · exact hset

theorem disk_applied (e : Engine) (change : SettingsChange) : (e.applied change).disk = e.disk := by
  have hfollowed : (e.followed change).disk = e.disk := by
    simp only [followed]
    split <;> rfl
  exact (disk_followBuffer _ change).trans hfollowed

theorem snapshot_saveSnapshot (e : Engine) : e.saveSnapshot.snapshot = e.snapshot := by
  rw [saveSnapshot]
  split <;> rfl

theorem disk_saveSnapshot (h : e.settings.stateDir = some dir) :
    e.saveSnapshot.disk = (e.snapshot.save e.disk dir).2 := by
  rw [saveSnapshot, h]
  rfl

/-- Without volumes a change of the settings stores the snapshot that the engine has after it, if it
touches the directories or the filters, and nothing otherwise. -/
theorem disk_applyChange (hmounts : e.steward.mounts = .empty)
    (hdir : e.settings.stateDir = some dir) (change : SettingsChange) :
    (e.applyChange change).disk =
      if change.touchesDirectories || change.touchesFilters then
        ((e.applyChange change).snapshot.save e.disk dir).2
      else e.disk := by
  let back := (e.applied change).restoreAfter (e.removedBy change)
  have hback : back.disk = e.disk := (disk_restoreAfter _ _).trans (disk_applied e change)
  have hsettings : back.settings.stateDir = some dir := by
    rw [settings_restoreAfter, applied, (sameTerms_dispatch _).settings, settings_followBuffer,
      settings_followed, hdir]
  have hremoved : (!(e.removedBy change).isEmpty || change.touchesDirectories) =
      change.touchesDirectories := by
    cases hdirectories : change.touchesDirectories with
    | true => rw [Bool.or_true]
    | false =>
      rw [removedBy, Steward.removed_applySettings hmounts e.roots e.settings hdirectories]
      rfl
  have happly : e.applyChange change =
      if change.touchesDirectories || change.touchesFilters then back.saveSnapshot else back := by
    rw [← hremoved]
    rfl
  rw [happly]
  split
  · rw [snapshot_saveSnapshot, disk_saveSnapshot hsettings, hback]
  · exact hback

theorem Unasked.disk_adopt (h : Unasked w e) (hmounts : w.mounts = .empty) {settings : Settings}
    (hdir : settings.stateDir = some dir) :
    (e.adopt settings).disk =
      if e.stores (.adopt settings) then ((e.adopt settings).snapshot.save e.disk dir).2
      else e.disk := by
  have hstores : e.stores (.adopt settings) =
      (SettingsChange.touchesDirectories ⟨e.settings.changedKeys settings⟩ ||
        SettingsChange.touchesFilters ⟨e.settings.changedKeys settings⟩) := rfl
  rw [hstores]
  cases hchange : e.settings.change? settings with
  | none =>
    have hnone := Settings.changedKeys_eq_nil_iff.2 (Settings.change?_eq_none_iff.1 hchange)
    rw [adopt_of_none hchange, hnone]
    rfl
  | some change =>
    obtain rfl := Settings.change?_eq_some hchange
    obtain ⟨lost, hfollows⟩ := h.follows
    rw [adopt_of_some hchange]
    exact disk_applyChange (e := { e with settings })
      ((congrArg Steward.mounts hfollows.steward).trans hmounts) hdir _

/-- A move that stores the snapshot stores that of the engine after it; others leave the disk as it
is. -/
theorem Unasked.disk_step (h : Unasked w e) (hmounts : w.mounts = .empty) {move : EngineMove}
    (hmove : move.KeepsTo dir) :
    (e.step move).disk =
      if e.stores move then ((e.step move).snapshot.save e.disk dir).2 else e.disk := by
  cases move with
  | adopt settings => exact h.disk_adopt hmounts hmove
  | _ => exact Engine.disk_step rfl

/-! ### Since the snapshot was stored -/

/-- What is left of the roots when the snapshot was stored: the directories and the filters are the
same, and so are the roots with their flags, unless the directories have been added again. -/
structure Since (saved e : Engine) : Prop where
  directories : e.steward.directories = saved.steward.directories
  filters : e.roots.filters = saved.roots.filters
  roots : (saved.settings.enableMonitors = e.settings.enableMonitors ∧
    ∀ q, e.roots.flagsAt? q = saved.roots.flagsAt? q) ∨ e.IsComplete

theorem Since.refl (e : Engine) : e.Since e := ⟨rfl, rfl, .inl ⟨rfl, fun _ => rfl⟩⟩

theorem Since.undisturbed (h : saved.Since e) (hsame : e.Undisturbed e')
    (hsettings : e'.settings = e.settings) (hfilters : e'.roots.filters = e.roots.filters) :
    saved.Since e' where
  directories := hsame.steward ▸ h.directories
  filters := hfilters.trans h.filters
  roots := by
    rw [hsettings, IsComplete, hsame.steward]
    exact h.roots.imp (fun h => ⟨h.1, fun q => (hsame.flagsAt? q).trans (h.2 q)⟩)
      fun h q => (hsame.flagsAt? q).trans (h q)

/-- Settings that leave the directories and the filters alone. -/
theorem Since.adopt (h : saved.Since e) (hunasked : Unasked w e) (hmounts : w.mounts = .empty)
    {settings : Settings} (hkept : e.stores (.adopt settings) = false) :
    saved.Since (e.adopt settings) := by
  obtain ⟨hdirectories, hfilters⟩ := Bool.or_eq_false_iff.1 hkept
  have hnext := hunasked.adopt hmounts settings
  have hagree := settings_adopt_agree e settings
  obtain ⟨lost, hfollows⟩ := hunasked.follows
  obtain ⟨lost', hfollows'⟩ := hnext.follows
  have hsame : w.directoriesOf (e.adopt settings).settings = w.directoriesOf e.settings := by
    rw [← w.directoriesOf_congr hdirectories, Steward.directoriesOf, Steward.directoriesOf,
      hagree.singleDirectories, hagree.recursiveDirectories]
  constructor
  case directories =>
    rw [← h.directories]
    exact (congrArg Steward.directories hfollows'.steward).trans
      (hsame.trans (congrArg Steward.directories hfollows.steward).symm)
  case filters =>
    rw [← h.filters, hnext.conforms.filters, hunasked.conforms.filters,
      ← Steward.filtersOf_congr hfilters, Steward.filtersOf, Steward.filtersOf, hagree.ignoredFiles,
      hagree.ignoredDirectories, hagree.markers, hagree.filterHidden]
  case roots =>
    have hflags := hunasked.flagsAt?_adopt hmounts hdirectories
    split at hflags
    · next hmonitors =>
      have hmonitors' : (e.adopt settings).settings.enableMonitors = e.settings.enableMonitors :=
        hagree.enableMonitors.trans hmonitors.symm
      refine h.roots.imp (fun h => ⟨h.1.trans hmonitors'.symm, fun q => (hflags q).trans (h.2 q)⟩)
        fun h q => ?_
      have hcomplete : e.roots.flagsAt? q = (w.under e.settings).wanted? q :=
        hfollows.steward ▸ h q
      have hsteward : (e.adopt settings).steward = w.under (e.adopt settings).settings :=
        hfollows'.steward
      rw [hflags, hcomplete, hsteward, Steward.wanted?_congr hsame hmonitors'.symm]
    · exact .inr hflags

theorem Since.step (h : saved.Since e) (hunasked : Unasked w e) (hmounts : w.mounts = .empty)
    {move : EngineMove} (hmove : move.KeepsTo dir) (hkept : e.stores move = false) :
    saved.Since (e.step move) := by
  cases hadopted : move.adopted? with
  | none =>
    have hsettings := e.settings_step hadopted
    refine h.undisturbed (hunasked.undisturbed_step hmove hadopted) hsettings ?_
    rw [(hunasked.step hmounts hmove).conforms.filters, hunasked.conforms.filters, hsettings]
  | some settings =>
    cases move with
    | adopt next => exact h.adopt hunasked hmounts hkept
    | _ => contradiction

/-- The roots are those of the time when the snapshot was stored if they are monitored as they were
then, or there are none, and if none was missing then that is there now. -/
theorem Since.flagsAt?_eq_iff (h : saved.Since e) (hbefore : Unasked w saved) (hnow : Unasked w e) :
    (∀ q, saved.roots.flagsAt? q = e.roots.flagsAt? q) ↔
      (saved.settings.enableMonitors = e.settings.enableMonitors ∨ e.roots.places = []) ∧
        (e.IsComplete → saved.IsComplete) := by
  obtain ⟨lost, hfollows⟩ := hbefore.follows
  obtain ⟨lost', hfollows'⟩ := hnow.follows
  have hsteward : saved.steward = w.under saved.settings := hfollows.steward
  have hsteward' : e.steward = w.under e.settings := hfollows'.steward
  have hdirectories : w.directoriesOf e.settings = w.directoriesOf saved.settings := by
    have hsame := h.directories
    rwa [hsteward, hsteward'] at hsame
  rcases h.roots with ⟨hmonitors, hflags⟩ | hcomplete
  · refine iff_of_true (fun q => (hflags q).symm) ⟨.inl hmonitors, fun hcomplete q => ?_⟩
    rw [← hflags, hcomplete, hsteward, hsteward', Steward.wanted?_congr hdirectories hmonitors]
  · have hflags (q : Location) : e.roots.flagsAt? q = (w.under e.settings).wanted? q :=
      hsteward' ▸ hcomplete q
    rw [places_eq_nil_iff, forall_congr' fun q => by rw [hflags],
      hfollows.eq_wanted?_iff hdirectories]
    simp only [hflags]
    exact and_congr_right fun _ => ⟨fun h _ => h, fun h => h hcomplete⟩

/-! ### What is stored -/

/-- The snapshot that an engine had when it was `saved` is stored, and it can be stored anew. -/
structure Kept (w : Steward) (dir : Path) (saved e : Engine) : Prop where
  unasked : Unasked w e
  before : Unasked w saved
  stateDir : e.settings.stateDir = some dir
  room : Snapshot.HasRoom e.disk dir
  stored : ∃ t, Snapshot.load e.disk dir = .ok (some t) ∧
    t.fingerprint = saved.snapshot.fingerprint
  since : saved.Since e

theorem stateDir_step (h : e.settings.stateDir = some dir) {move : EngineMove}
    (hmove : move.KeepsTo dir) : (e.step move).settings.stateDir = some dir := by
  cases hadopted : move.adopted? with
  | none => rw [settings_step e hadopted, h]
  | some settings =>
    cases move with
    | adopt next =>
      rw [step]
      cases hchange : e.settings.change? next with
      | none => rw [adopt_of_none hchange, h]
      | some change =>
        rw [adopt_of_some hchange, settings_applyChange]
        exact hmove
    | _ => contradiction

/-- What has been saved is stored. -/
theorem stored_of_save {disk : Disk} {bytes : List UInt8} (hroom : Snapshot.HasRoom disk dir)
    (hencode : e.snapshot.encode? = some bytes) (hsize : bytes.length < 2 ^ 64) :
    Snapshot.HasRoom (e.snapshot.save disk dir).2 dir ∧
      Snapshot.load (e.snapshot.save disk dir).2 dir = .ok (some e.snapshot) := by
  obtain ⟨stored, hsave, hread, hagain⟩ := hroom.save hencode
  rw [hsave]
  exact ⟨hagain, Snapshot.load_of_read hread hencode rfl hsize⟩

theorem Kept.step (h : Kept w dir saved e) (hmounts : w.mounts = .empty) {move : EngineMove}
    (hmove : move.KeepsTo dir) {bytes : List UInt8}
    (hencode : (e.step move).snapshot.encode? = some bytes) (hsize : bytes.length < 2 ^ 64) :
    Kept w dir (if e.stores move then e.step move else saved) (e.step move) := by
  have hunasked := h.unasked.step hmounts hmove
  have hdisk := h.unasked.disk_step hmounts hmove
  have hdir := stateDir_step h.stateDir hmove
  cases hstores : e.stores move with
  | true =>
    rw [hstores, if_pos rfl] at hdisk
    obtain ⟨hroom, hload⟩ := stored_of_save h.room hencode hsize
    rw [← hdisk] at hroom hload
    exact ⟨hunasked, hunasked, hdir, hroom, ⟨_, hload, rfl⟩, .refl _⟩
  | false =>
    rw [hstores, if_neg Bool.false_ne_true] at hdisk
    refine ⟨hunasked, h.before, hdir, hdisk ▸ h.room, hdisk ▸ h.stored, ?_⟩
    exact h.since.step h.unasked hmounts hmove hstores

/-! ### The start and a restart -/

/-- The check against a stored snapshot that can be read. -/
theorem checkSnapshot_of_load {stored : Option Snapshot} (hdir : e.settings.stateDir = some dir)
    (hload : Snapshot.load e.disk dir = .ok stored) :
    e.checkSnapshot =
      if stored.map (·.fingerprint) = some e.snapshot.fingerprint then e
      else { e with roots := e.roots.updateAll, disk := (e.snapshot.save e.disk dir).2 } := by
  have hsame : Snapshot.ofRoots e.roots.updateAll e.watches.isOnDemand = e.snapshot := rfl
  rw [checkSnapshot, hdir]
  simp only [Snapshot.check, hload]
  split
  · next heq => exact (if_pos heq).symm
  · next hne =>
    refine Eq.trans ?_ (if_neg hne).symm
    rw [hsame]
    split <;> next hsave => rw [hsave]

/-- The check does not change the snapshot. -/
theorem snapshot_unchecked (buffered settings : Settings) (environment : Environment)
    (systemLocations : List Location) (disk : Disk) :
    (new buffered settings environment systemLocations disk).unchecked.snapshot =
      (new buffered settings environment systemLocations disk).start.snapshot := by
  let e := (new buffered settings environment systemLocations disk).unchecked
  have hstart : (new buffered settings environment systemLocations disk).start =
      e.checkSnapshot.dispatch := rfl
  have hblank : e.watches.Blank := blank_followDirectories ⟨rfl, rfl⟩
  have hwatches : e.checkSnapshot.dispatch.watches = e.watches := by
    have hsame := (checkSnapshot_aside e).2
    rw [← hsame] at hblank
    exact (hblank.followAll _).trans hsame
  have hsame : e.checkSnapshot.dispatch.snapshot = e.snapshot :=
    snapshot_congr (fun q => flagsAt?_checkSnapshot e q) (sameTerms_checkSnapshot e).filters
      hwatches
  rw [hstart, hsame]

theorem kept_start {buffered settings : Settings} (environment : Environment)
    (systemLocations : List Location) {disk : Disk} {bytes : List UInt8} {stored : Option Snapshot}
    (hdir : settings.stateDir = some dir) (hroom : Snapshot.HasRoom disk dir)
    (hload : Snapshot.load disk dir = .ok stored)
    (hencode : (new buffered settings environment systemLocations disk).start.snapshot.encode? =
      some bytes)
    (hsize : bytes.length < 2 ^ 64) :
    Kept (.new environment systemLocations) dir
      (new buffered settings environment systemLocations disk).start
      (new buffered settings environment systemLocations disk).start := by
  have hunasked := unasked_start buffered settings environment systemLocations disk
  let e := (new buffered settings environment systemLocations disk).unchecked
  have hdisk : (new buffered settings environment systemLocations disk).start.disk =
      e.checkSnapshot.disk := rfl
  rw [checkSnapshot_of_load hdir hload] at hdisk
  have hsnapshot := snapshot_unchecked buffered settings environment systemLocations disk
  rw [hsnapshot] at hdisk
  have hstate : (new buffered settings environment systemLocations disk).start.settings.stateDir =
      some dir := (congrArg Settings.stateDir (settings_start ..)).trans hdir
  split at hdisk
  · next hsame =>
    obtain ⟨t, rfl, ht⟩ := Option.map_eq_some_iff.1 hsame
    have hkept : (new buffered settings environment systemLocations disk).start.disk = disk := hdisk
    refine ⟨hunasked, hunasked, hstate, ?_, ⟨t, ?_, ht⟩, .refl _⟩
    · rw [hkept]
      exact hroom
    · rw [hkept]
      exact hload
  · obtain ⟨hagain, hsaved⟩ := stored_of_save hroom hencode hsize
    have hchanged : (new buffered settings environment systemLocations disk).start.disk =
        ((new buffered settings environment systemLocations disk).start.snapshot.save disk
          dir).2 := hdisk
    rw [← hchanged] at hagain hsaved
    exact ⟨hunasked, hunasked, hstate, hagain, ⟨_, hsaved, rfl⟩, .refl _⟩

/-- A restart gives complete roots of the same directories. -/
theorem Since.restart {environment : Environment} {systemLocations : List Location}
    (h : saved.Since e) (hnow : Unasked (.new environment systemLocations) e) (buffered : Settings)
    (disk : Disk) :
    saved.Since (new buffered e.settings environment systemLocations disk).start := by
  have hunasked := unasked_start buffered e.settings environment systemLocations disk
  have hfollows' := follows_start buffered e.settings environment systemLocations disk
  obtain ⟨lost, hfollows⟩ := hnow.follows
  constructor
  case directories =>
    rw [← h.directories]
    exact congrArg Steward.directories (hfollows'.steward.trans hfollows.steward.symm)
  case filters =>
    rw [← h.filters, hunasked.conforms.filters, hnow.conforms.filters, settings_start]
  case roots =>
    exact .inr (isComplete_start buffered e.settings environment systemLocations disk)

theorem Kept.run {environment : Environment} {systemLocations : List Location}
    (h : Kept (.new environment systemLocations) dir e e) {moves : List EngineMove}
    (hmoves : ∀ move ∈ moves, move.KeepsTo dir)
    (hstorable : ∀ before, before <+: moves →
      ∃ bytes, (e.run before).snapshot.encode? = some bytes ∧ bytes.length < 2 ^ 64) :
    Kept (.new environment systemLocations) dir (e.lastStored moves) (e.run moves) := by
  induction moves using List.reverseRecOn with
  | nil => exact h
  | append_singleton moves move ih =>
    obtain ⟨hearlier, hlast⟩ := List.forall_mem_append.1 hmoves
    have hkept := ih hearlier fun before hbefore =>
      hstorable before (hbefore.trans (List.prefix_append ..))
    obtain ⟨bytes, hencode, hsize⟩ := hstorable _ (List.prefix_refl _)
    rw [run_concat] at hencode
    rw [lastStored_concat, run_concat]
    exact hkept.step rfl (hlast move (List.mem_singleton_self move)) hencode hsize

/-- **The stored snapshot follows the roots, but not whether they are monitored.** Take an engine
that can store its snapshot, after its start and any changes of the settings, with anything else
that applies no request and is not about volumes. The fingerprint in the file is that of the
snapshot the engine had right after the last change that touched the directories or the filters, or
at the start if none did.

It is still the snapshot of the live roots exactly if these are monitored now as they were then, or
there are none, and the roots were complete then in case they are now. After a restart with the same
settings, whatever has been read for its write buffer, it is the snapshot of the roots exactly if
these are monitored as they were then, or there are none, and the roots were complete then. Where the
restart finds its own fingerprint in the file, it leaves the roots alone, and otherwise it has all of
them checked for freshness. -/
theorem stored_run (buffered settings buffered' : Settings) (environment : Environment)
    (systemLocations : List Location) (disk : Disk) {dir : Path} {moves : List EngineMove}
    (hdir : settings.stateDir = some dir) (hroom : Snapshot.HasRoom disk dir)
    (hload : ∃ stored, Snapshot.load disk dir = .ok stored)
    (hmoves : ∀ move ∈ moves, move.KeepsTo dir)
    (hstorable : ∀ before, before <+: moves →
      ∃ bytes, ((new buffered settings environment systemLocations disk).start.run
        before).snapshot.encode? = some bytes ∧ bytes.length < 2 ^ 64) :
    let start := (new buffered settings environment systemLocations disk).start
    let e := start.run moves
    let saved := start.lastStored moves
    let restart := new buffered' e.settings environment systemLocations e.disk
    (∃ t, Snapshot.load e.disk dir = .ok (some t) ∧
        t.fingerprint = saved.snapshot.fingerprint) ∧
      (saved.snapshot = e.snapshot ↔
        (saved.settings.enableMonitors = e.settings.enableMonitors ∨ e.roots.places = []) ∧
          (e.IsComplete → saved.IsComplete)) ∧
      (saved.snapshot = restart.start.snapshot ↔
        (saved.settings.enableMonitors = e.settings.enableMonitors ∨
          restart.start.roots.places = []) ∧ saved.IsComplete) ∧
      restart.unchecked.checkSnapshot.roots =
        if saved.snapshot.fingerprint = restart.start.snapshot.fingerprint then
          restart.unchecked.roots
        else restart.unchecked.roots.updateAll := by
  intro start e saved restart
  obtain ⟨stored, hload⟩ := hload
  obtain ⟨bytes, hencode, hsize⟩ := hstorable [] List.nil_prefix
  have hkept : Kept (.new environment systemLocations) dir saved e :=
    (kept_start environment systemLocations hdir hroom hload hencode hsize).run hmoves hstorable
  have hunasked := unasked_start buffered' e.settings environment systemLocations e.disk
  have hagain : saved.Since restart.start := hkept.since.restart hkept.unasked buffered' e.disk
  obtain ⟨t, ht, hfingerprint⟩ := hkept.stored
  refine ⟨⟨t, ht, hfingerprint⟩, ?_, ?_, ?_⟩
  · rw [hkept.before.snapshot_eq_iff hkept.unasked hkept.since.filters.symm]
    exact hkept.since.flagsAt?_eq_iff hkept.before hkept.unasked
  · rw [hkept.before.snapshot_eq_iff hunasked hagain.filters.symm,
      hagain.flagsAt?_eq_iff hkept.before hunasked, settings_start]
    have hcomplete := isComplete_start buffered' e.settings environment systemLocations e.disk
    exact and_congr_right fun _ => ⟨fun h => h hcomplete, fun h _ => h⟩
  · have hsnapshot : restart.unchecked.snapshot = restart.start.snapshot :=
      snapshot_unchecked buffered' e.settings environment systemLocations e.disk
    have hcheck := checkSnapshot_of_load (e := restart.unchecked) hkept.stateDir ht
    have hsame : (some t).map (·.fingerprint) = some restart.unchecked.snapshot.fingerprint ↔
        saved.snapshot.fingerprint = restart.start.snapshot.fingerprint := by
      rw [hsnapshot, Option.map_some, Option.some_inj, hfingerprint]
    rw [hcheck, apply_ite roots]
    exact if_congr hsame rfl rfl

/-- The filters change, and then roots are not monitored for a while. The stored snapshot is the
right one again, and a restart leaves the root alone. -/
theorem stored_run_monitored_again :
    let nowhere : Environment := ⟨fun _ => none, none, fun _ => none, fun _ => false⟩
    let dir : Path := .ofString "/var/state"
    let settings : Settings := { Settings.default with
      singleDirectories := [], recursiveDirectories := ["/a"], stateDir := some dir }
    let next : Settings := { settings with filterHidden := false }
    let moves : List EngineMove :=
      [.adopt next, .adopt { next with enableMonitors := false }, .adopt next]
    let e := (new settings settings nowhere [] ⟨.empty⟩).start.run moves
    let restart := new e.settings e.settings nowhere [] e.disk
    (∃ t, Snapshot.load e.disk dir = .ok (some t) ∧ t.fingerprint = e.snapshot.fingerprint) ∧
      restart.unchecked.checkSnapshot.roots = restart.unchecked.roots := by
  intro nowhere dir settings next moves e restart
  let start := (new settings settings nowhere [] ⟨.empty⟩).start
  have hroom : Snapshot.HasRoom ⟨.empty⟩ dir := ⟨_, rfl, _, rfl, rfl⟩
  have hmoves : ∀ move ∈ moves, move.KeepsTo dir := by
    simp only [moves, List.forall_mem_cons]
    exact ⟨rfl, rfl, rfl, fun _ h => absurd h List.not_mem_nil⟩
  have hsizes : ∀ before ∈ moves.inits,
      (start.run before).snapshot.encode?.any (·.length < 2 ^ 64) = true := by
    decide +kernel
  have hlive : (start.lastStored moves).snapshot = e.snapshot := by decide +kernel
  have hagain : (start.lastStored moves).snapshot = restart.start.snapshot := by decide +kernel
  obtain ⟨hstored, -, -, hcheck⟩ :=
    stored_run settings settings e.settings nowhere [] ⟨.empty⟩ rfl hroom ⟨none, rfl⟩ hmoves
      fun before hbefore => by
        simpa [Option.any_eq_true] using hsizes before ((List.mem_inits ..).2 hbefore)
  exact ⟨hlive ▸ hstored, hcheck.trans (if_pos (congrArg Snapshot.fingerprint hagain))⟩

/-- Once the root at `/a` is no longer monitored, the file holds another fingerprint than that of
the live root, and a restart with the same settings asks for a check of the root. -/
theorem stored_run_ne :
    let nowhere : Environment := ⟨fun _ => none, none, fun _ => none, fun _ => false⟩
    let dir : Path := .ofString "/var/state"
    let settings : Settings := { Settings.default with
      singleDirectories := [], recursiveDirectories := ["/a"], stateDir := some dir }
    let next : Settings := { settings with enableMonitors := false }
    let e := (new settings settings nowhere [] ⟨.empty⟩).start.run [.adopt next]
    (∃ t, Snapshot.load e.disk dir = .ok (some t) ∧ t.fingerprint ≠ e.snapshot.fingerprint) ∧
      .updated (Path.ofString "/a").location ∈
        (new e.settings e.settings nowhere [] e.disk).start.crawled := by
  intro nowhere dir settings next e
  let start := (new settings settings nowhere [] ⟨.empty⟩).start
  have hsizes : ∀ before ∈ [EngineMove.adopt next].inits,
      (start.run before).snapshot.encode?.any (·.length < 2 ^ 64) = true := by
    decide +kernel
  have hstorable (before) (hbefore : before <+: [EngineMove.adopt next]) :
      ∃ bytes, (start.run before).snapshot.encode? = some bytes ∧ bytes.length < 2 ^ 64 := by
    simpa [Option.any_eq_true] using hsizes before ((List.mem_inits ..).2 hbefore)
  obtain ⟨bytes, hencode, hsize⟩ := hstorable [] List.nil_prefix
  have hroom : Snapshot.HasRoom ⟨.empty⟩ dir := ⟨_, rfl, _, rfl, rfl⟩
  have hload : Snapshot.load ⟨.empty⟩ dir = .ok none := rfl
  have hmoves : ∀ move ∈ [EngineMove.adopt next], move.KeepsTo dir := by
    simp only [List.forall_mem_cons]
    exact ⟨rfl, fun _ h => absurd h List.not_mem_nil⟩
  have hstart : Kept (.new nowhere []) dir start start :=
    kept_start nowhere [] rfl hroom hload hencode hsize
  obtain ⟨t, ht, hfingerprint⟩ := (hstart.run hmoves hstorable).stored
  have hlive : (start.lastStored [.adopt next]).snapshot.fingerprint ≠ e.snapshot.fingerprint := by
    decide +kernel
  refine ⟨⟨t, ht, fun hsame => hlive (hfingerprint.symm.trans hsame)⟩, ?_⟩
  decide +kernel

end Engine

end IndexControl
