import IndexControl.Proofs.Engine.Advances
import IndexControl.Proofs.Engine.Identifying

/-!
# Where recorded volumes come from

The volume of a root is probed while other things happen, and the answer is recorded for whatever
root is at the place when it comes back. Only identifications record volumes, so a recorded volume
can be traced back to the one that has brought it. From its return on the root has stayed. Whether
the root was already there when the probe was planned is another matter: the answer belongs to the
root exactly if no end of it was told while the identification was under way.

## Main definitions

* `Inquiry`: an identification while other things happen.
* `Engine.Conducted`: runs in which identifications come back with what they have found.
* `Inquiry.Records`: an identification has brought the volume that is recorded.

## Main results

* `Engine.Conducted.recorded_of_volumeAt?`: every recorded volume has been brought.
* `Engine.volumeAt?_iff_recorded`: which identification it was, and whether the volume belongs to
  the root.
-/

namespace IndexControl

open RootSet

/-- A volume is probed only for the owner of a file, and only where none has been recorded. -/
theorem Identification.of_probed {s : RootSet} {file : Path} {a : Attributes} {r : Resolved}
    {q : Location} {volume : Option String} (h : ((plan s file).resolve a).1 = .ok r)
    (hprobed : r.probed = some (q, volume)) :
    s.owner? file.location = some q ∧ s.volumeAt? q = none := by
  cases howner : s.owner? file.location with
  | none =>
    simp only [resolve, plan, lookupVolume, howner] at h
    cases hquery : a.query file.location with
    | error cause => simp [hquery] at h
    | ok info =>
      simp only [hquery] at h
      obtain rfl := Except.ok.inj h
      contradiction
  | some root =>
    obtain ⟨-, -, -, hanswer⟩ := resolve_plan howner h
    rw [hprobed] at hanswer
    cases hvolume : s.volumeAt? root with
    | some recorded => simp [hvolume] at hanswer
    | none =>
      simp only [hvolume, Option.isSome_none, Bool.false_eq_true, if_false] at hanswer
      obtain ⟨rfl, -⟩ := Prod.mk.inj (Option.some.inj hanswer)
      exact ⟨rfl, hvolume⟩

/-- What is recorded when an identification has come back was recorded before, or it is what has
been probed, for a root without a recorded volume. -/
theorem Resolved.of_volumeAt?_record {s : RootSet} {r : Resolved} {q : Location}
    {volume : Option String} (h : (r.record s).volumeAt? q = some volume) :
    s.volumeAt? q = some volume ∨
      r.probed = some (q, volume) ∧ s.isRoot q = true ∧ s.volumeAt? q = none := by
  rw [record] at h
  cases hprobed : r.probed with
  | none =>
    rw [hprobed] at h
    exact .inl h
  | some found =>
    obtain ⟨place, answer⟩ := found
    simp only [hprobed, volumeAt?_recordVolume] at h
    split_ifs at h with hplace
    · obtain ⟨rfl, hroot⟩ := hplace
      cases hrecorded : s.volumeAt? q with
      | some recorded =>
        rw [hrecorded] at h
        exact .inl h
      | none =>
        rw [hrecorded] at h
        obtain rfl := Option.some.inj h
        exact .inr ⟨rfl, hroot, rfl⟩
    · exact .inl h

/-- A file is identified while other things happen. -/
structure Inquiry where
  /-- What happens before. -/
  earlier : List EngineMove
  number : Nat
  file : Path
  /-- What happens between the call and the answer. -/
  between : List EngineMove
  /-- What is found on the disk in the end. -/
  found : Attributes

namespace Inquiry

variable (i : Inquiry) (start : Engine)

/-- All that happens until the identification comes back. -/
def moves : List EngineMove :=
  i.earlier ++ .handle (.call i.number (.identify i.file)) :: i.between

/-- The engine when it is asked, and plans what to look for. -/
def asked : Engine := start.run i.earlier

/-- The engine when the identification is about to come back. -/
def returned : Engine := start.run i.moves

/-- What the identification comes back with. -/
def answer : Except ServiceError Resolved :=
  ((Identification.plan (i.asked start).roots i.file).resolve i.found).1

/-- All that happens, with the return and what comes later. -/
def history (r : Resolved) (later : List EngineMove) : List EngineMove :=
  i.moves ++ .handle (.resolved i.number (.ok r)) :: later

/-- The identification has brought the volume that is recorded for a root after its return and later
moves: it has probed the root at the place, there was a root without a recorded volume when it came
back, and this one has stayed since. -/
structure Records (r : Resolved) (later : List EngineMove) (q : Location)
    (volume : Option String) : Prop where
  /-- No later call has the same number. -/
  opened : ∀ asked, .handle (.call i.number asked) ∉ i.between
  answer : i.answer start = .ok r
  probed : r.probed = some (q, volume)
  owner : (i.asked start).roots.owner? i.file.location = some q
  unprobed : (i.asked start).roots.volumeAt? q = none
  isRoot : (i.returned start).roots.isRoot q = true
  unrecorded : (i.returned start).roots.volumeAt? q = none
  stays : (i.returned start).Stays q (start.run (i.history r later))

end Inquiry

namespace Engine

variable {start e e' e'' : Engine} {moves : List EngineMove} {i : Inquiry} {r : Resolved}
  {later : List EngineMove} {q : Location} {volume : Option String}

/-- Runs in which identifications come back with what they have found. The number of an answer is
that of the last such call. -/
inductive Conducted (start : Engine) : List EngineMove → Prop
  | nil : Conducted start []
  | step {moves : List EngineMove} (move : EngineMove) (h : Conducted start moves)
    (hmove : move.IsGenuine) (hreturn : ¬move.IsReturn) : Conducted start (moves ++ [move])
  | answer (i : Inquiry) (h : Conducted start i.moves)
    (hopened : ∀ asked, .handle (.call i.number asked) ∉ i.between) {r : Resolved}
    (hr : i.answer start = .ok r) : Conducted start (i.history r [])

theorem Conducted.isGenuine (h : start.Conducted moves) : ∀ move ∈ moves, move.IsGenuine := by
  induction h with
  | nil => exact fun _ hmem => absurd hmem List.not_mem_nil
  | step move _ hmove _ ih =>
    exact List.forall_mem_append.2 ⟨ih, List.forall_mem_singleton.2 hmove⟩
  | answer i _ _ _ ih => exact List.forall_mem_append.2 ⟨ih, List.forall_mem_singleton.2 trivial⟩

/-! ### Roots that stay -/

theorem Stays.trans (h : e.Stays q e') (h' : e'.Stays q e'') : e.Stays q e'' := by
  obtain ⟨news, hnews, hended⟩ := h
  obtain ⟨news', hnews', hended'⟩ := h'
  exact ⟨news ++ news', by rw [hnews', hnews, List.append_assoc],
    List.forall_mem_append.2 ⟨hended, hended'⟩⟩

theorem stays_of_crawled (h : e'.crawled = e.crawled) : e.Stays q e' :=
  ⟨[], by rw [h, List.append_nil], fun _ h => absurd h List.not_mem_nil⟩

/-- What is told from one move to another. -/
theorem InStep.told_run (h : e.InStep) (moves : List EngineMove) :
    ∃ news, (e.run moves).crawled = e.crawled ++ news ∧
      RootEvent.AllFit e.roots.placeSet news ∧
      RootEvent.mirrorAll e.roots.placeSet news = (e.run moves).roots.placeSet := by
  obtain ⟨news, hnews, -⟩ := (turns_run e moves).keepsOrTells []
  have hrun := h.run moves
  have hfits := hrun.fits
  have hexact := hrun.exact
  rw [hnews, RootEvent.allFit_append, h.exact] at hfits
  rw [hnews, RootEvent.mirrorAll_append, h.exact] at hexact
  rw [told, told, hrun.quiet, h.quiet, List.append_nil, List.append_nil] at hnews
  exact ⟨news, hnews, hfits.2, hexact⟩

/-! ### From a recorded volume to the identification -/

theorem crawled_returned (e : Engine) (number : Nat) (r : Resolved) :
    (e.step (.handle (.resolved number (.ok r)))).crawled = e.crawled :=
  (undisturbed_handleResolved e number (.ok r)).crawled

/-- What is recorded when an identification has come back. -/
theorem roots_returned (e : Engine) (number : Nat) (r : Resolved) :
    (e.step (.handle (.resolved number (.ok r)))).roots = r.record e.roots := rfl

end Engine

namespace Inquiry

open Engine

variable {start : Engine} {i : Inquiry} {r : Resolved} {later : List EngineMove} {q : Location}
  {volume : Option String}

theorem run_history_concat (start : Engine) (i : Inquiry) (r : Resolved) (later : List EngineMove)
    (move : EngineMove) :
    start.run (i.history r (later ++ [move])) = (start.run (i.history r later)).step move := by
  have hmoves : i.history r (later ++ [move]) = i.history r later ++ [move] := by simp [history]
  rw [hmoves, Engine.run_concat]

theorem run_history_nil (start : Engine) (i : Inquiry) (r : Resolved) :
    start.run (i.history r []) =
      (i.returned start).step (.handle (.resolved i.number (.ok r))) := by
  rw [history, Engine.run_concat, ← returned]

theorem run_history (start : Engine) (i : Inquiry) (r : Resolved) (later : List EngineMove) :
    start.run (i.history r later) = (start.run (i.history r [])).run later := by
  simp [history, Engine.run, List.foldl_append]

/-- A move that tells of no end of the root leaves the identification the one that has brought its
volume. -/
theorem Records.concat (h : i.Records start r later q volume) {move : EngineMove}
    (hstays : (start.run (i.history r later)).Stays q
      ((start.run (i.history r later)).step move)) :
    i.Records start r (later ++ [move]) q volume :=
  { h with stays := run_history_concat start i r later move ▸ h.stays.trans hstays }

/-- The volume that an identification has brought is recorded. -/
theorem Records.volumeAt? (h : i.Records start r later q volume) (hstart : start.InStep) :
    (start.run (i.history r later)).roots.volumeAt? q = some volume := by
  have hbrought : (start.run (i.history r [])).roots.volumeAt? q = some volume := by
    rw [run_history_nil, roots_returned]
    simp only [Resolved.record, h.probed, volumeAt?_recordVolume, h.isRoot, h.unrecorded, and_self,
      if_true, Option.getD_none]
  have hstays : (start.run (i.history r [])).Stays q
      ((start.run (i.history r [])).run later) := by
    obtain ⟨news, hnews, hended⟩ := h.stays
    refine ⟨news, ?_, hended⟩
    rw [← run_history, hnews, run_history_nil, crawled_returned]
  rw [run_history]
  exact ((hstart.run _).remembers later hstays).volumeAt? volume hbrought

/-- The root has been there since the identification was planned, and was not added in between,
exactly if it stayed until the identification came back. -/
theorem Records.not_added_iff (h : i.Records start r later q volume) (hstart : start.InStep) :
    (∃ news, (start.run (i.history r later)).crawled = (i.asked start).crawled ++ news ∧
      ∀ flags, .added q flags ∉ news) ↔ (i.asked start).Stays q (i.returned start) := by
  have hasked : (i.asked start).InStep := hstart.run i.earlier
  have hreturned : i.returned start =
      (i.asked start).run (.handle (.call i.number (.identify i.file)) :: i.between) := by
    simp [returned, asked, moves, Engine.run, List.foldl_append]
  have hhistory : start.run (i.history r later) = (i.asked start).run
      (.handle (.call i.number (.identify i.file)) :: i.between ++
        .handle (.resolved i.number (.ok r)) :: later) := by
    simp [asked, history, moves, Engine.run, List.foldl_append]
  constructor
  · rintro ⟨news, hnews, hadded⟩
    obtain ⟨first, hfirst, -, hmirror⟩ := hasked.told_run
      (.handle (.call i.number (.identify i.file)) :: i.between)
    rw [← hreturned] at hfirst hmirror
    obtain ⟨rest, hrest, -⟩ := h.stays
    rw [hrest, hfirst, List.append_assoc] at hnews
    obtain rfl := List.append_cancel_left hnews
    have hknown : q ∈ RootEvent.mirrorAll (i.asked start).roots.placeSet first :=
      hmirror ▸ mem_placeSet_iff.2 h.isRoot
    exact ⟨first, hfirst, RootEvent.not_ended_of_mem_mirrorAll hknown fun flags hmem =>
      hadded flags (List.mem_append_left _ hmem)⟩
  · intro hstays
    obtain ⟨news, hnews, hended⟩ := hstays.trans h.stays
    obtain ⟨told, htold, hfit, -⟩ := hasked.told_run
      (.handle (.call i.number (.identify i.file)) :: i.between ++
        .handle (.resolved i.number (.ok r)) :: later)
    rw [← hhistory, hnews] at htold
    obtain rfl := List.append_cancel_left htold
    exact ⟨news, hnews, hfit.added_notMem (mem_placeSet_iff.2 (isRoot_of_owner? h.owner)) hended⟩

end Inquiry

namespace Engine

section

variable (buffered settings : Settings) (environment : Environment)
  (systemLocations : List Location) (disk : Disk)

/-- At the start no volume is recorded. -/
theorem volumeAt?_start (q : Location) :
    (new buffered settings environment systemLocations disk).start.roots.volumeAt? q = none := by
  let e := (new buffered settings environment systemLocations disk).established
  have hestablished : e.roots.volumeAt? q = none := by
    have hedits := Steward.edits_establish (w := .new environment systemLocations)
      (fun _ hplace => absurd hplace List.not_mem_nil) (.empty .none) settings
    obtain ⟨news, -, hrevises⟩ := hedits.revises (wellFormed_empty .none)
    by_contra hne
    obtain ⟨volume, hvolume⟩ := Option.ne_none_iff_exists'.1 hne
    exact absurd (hrevises.volume q volume hvolume).1 (by simp [volumeAt?, root?, empty])
  have hchecked : e.followDirectories.checkSnapshot.roots.roots = e.roots.roots := by
    rw [checkSnapshot]
    split
    · rfl
    · simp only [Snapshot.check]
      split
      · rfl
      · split
        · rfl
        · split <;> rfl
  rw [start_eq]
  rw [volumeAt?, root?] at hestablished ⊢
  exact (congrArg (fun roots => (roots.find? q).bind (·.volume)) hchecked).trans hestablished

/-- Every recorded volume has been brought by an identification. -/
theorem Conducted.recorded_of_volumeAt? {moves : List EngineMove} {q : Location}
    {volume : Option String}
    (h : (new buffered settings environment systemLocations disk).start.Conducted moves)
    (hvolume : ((new buffered settings environment systemLocations disk).start.run
      moves).roots.volumeAt? q = some volume) :
    ∃ (i : Inquiry) (r : Resolved) (later : List EngineMove), moves = i.history r later ∧
      i.Records (new buffered settings environment systemLocations disk).start r later q
        volume := by
  induction h generalizing volume with
  | nil =>
    rw [run, List.foldl_nil, volumeAt?_start] at hvolume
    contradiction
  | @step moves move hearlier hmove hreturn ih =>
    have hsteady := steady_run buffered settings environment systemLocations disk hearlier.isGenuine
    obtain ⟨news, hnews, hrevises⟩ := hsteady.advances_step hmove hreturn
    rw [told, told, quiet_step hsteady.quiet move, hsteady.quiet, List.append_nil,
      List.append_nil] at hnews
    rw [run_concat] at hvolume
    obtain ⟨hbefore, hended⟩ := hrevises.volume q volume hvolume
    obtain ⟨i, r, later, rfl, hrecords⟩ := ih hbefore
    exact ⟨i, r, later ++ [move], by simp [Inquiry.history], hrecords.concat ⟨news, hnews, hended⟩⟩
  | @answer i hearlier hopened r hr ih =>
    rw [Inquiry.run_history_nil, roots_returned] at hvolume
    rcases Resolved.of_volumeAt?_record hvolume with hvolume | ⟨hprobed, hroot, hrecorded⟩
    · obtain ⟨i', r', later, hmoves, hrecords⟩ := ih hvolume
      refine ⟨i', r', later ++ [.handle (.resolved i.number (.ok r))], ?_,
        hrecords.concat (stays_of_crawled (crawled_returned _ _ _))⟩
      rw [Inquiry.history, hmoves]
      simp [Inquiry.history]
    · obtain ⟨howner, hunprobed⟩ := Identification.of_probed hr hprobed
      refine ⟨i, r, [], rfl, hopened, hr, hprobed, howner, hunprobed, hroot, hrecorded, ?_⟩
      exact Inquiry.run_history_nil _ i r ▸ stays_of_crawled (crawled_returned _ _ _)

/-- **A recorded volume belongs to its root exactly if the root has stayed while it was probed.** In
a run in which identifications come back with what they have found, a volume is recorded for a root
exactly if an identification has brought it: when it was planned, the file was owned by a root at
the place whose volume had not been recorded; what it found is the volume; when it came back, there
was a root at the place without a recorded volume; and this root has stayed since. The root was last
added before the identification was planned exactly if the crawler was told of no end of it while
the identification was under way. -/
theorem volumeAt?_iff_recorded {moves : List EngineMove}
    (hmoves : (new buffered settings environment systemLocations disk).start.Conducted moves) :
    let start := (new buffered settings environment systemLocations disk).start
    let e := start.run moves
    (∀ q volume, e.roots.volumeAt? q = some volume ↔ ∃ (i : Inquiry) (r : Resolved)
      (later : List EngineMove), moves = i.history r later ∧ i.Records start r later q volume) ∧
    ∀ (i : Inquiry) (r : Resolved) (later : List EngineMove) (q : Location)
      (volume : Option String), moves = i.history r later → i.Records start r later q volume →
      ((∃ news, e.crawled = (i.asked start).crawled ++ news ∧ ∀ flags, .added q flags ∉ news) ↔
        (i.asked start).Stays q (i.returned start)) := by
  intro start e
  have hstart : start.InStep := inStep_start buffered settings environment systemLocations disk
  refine ⟨fun q volume =>
    ⟨hmoves.recorded_of_volumeAt? buffered settings environment systemLocations disk, ?_⟩, ?_⟩
  · rintro ⟨i, r, later, hhistory, hrecords⟩
    rw [show e = start.run (i.history r later) from congrArg start.run hhistory]
    exact hrecords.volumeAt? hstart
  · intro i r later q volume hhistory hrecords
    rw [show e = start.run (i.history r later) from congrArg start.run hhistory]
    exact hrecords.not_added_iff hstart

end

/-- The volume at `/m` is replaced while `/m/f` is identified: what has been found on the old one is
recorded for the new one. -/
theorem volumeAt?_iff_recorded_remounted :
    let nowhere : Environment := ⟨fun _ => none, none, fun _ => none, fun _ => false⟩
    let settings : Settings := { Settings.default with
      singleDirectories := [], recursiveDirectories := [], indexRemovable := true }
    let volume := Path.ofString "/m"
    let file := Path.ofString "/m/f"
    let attributes := (Attributes.empty.setFile file.location
      (.known ⟨.file, some 7, none, false⟩)).setVolume volume.location [some "A", some "B"]
    let start := (new settings settings nowhere [] ⟨.empty⟩).start
    let inquiry : Inquiry := ⟨[.handle (.volume (.mounted ⟨volume, some "A", true⟩))], 1, file,
      [.handle (.volume (.unmounted volume)),
        .handle (.volume (.mounted ⟨volume, some "B", true⟩))], attributes⟩
    let resolved : Resolved := ⟨⟨"A", "7"⟩, some (volume.location, some "A")⟩
    start.Conducted (inquiry.history resolved []) ∧
      ∃ (i : Inquiry) (r : Resolved) (later : List EngineMove),
        inquiry.history resolved [] = i.history r later ∧
        i.Records start r later volume.location (some "A") := by
  intro nowhere settings volume file attributes start inquiry resolved
  have hmounted : start.Conducted inquiry.earlier := .step _ .nil trivial id
  have hasked : start.Conducted (inquiry.earlier ++ [.handle (.call 1 (.identify file))]) :=
    hmounted.step _ trivial id
  have hreturned : start.Conducted inquiry.moves :=
    (hasked.step (.handle (.volume (.unmounted volume))) trivial id).step _ trivial id
  have hopened : ∀ asked, .handle (.call inquiry.number asked) ∉ inquiry.between := by
    simp [inquiry]
  have hmoves : start.Conducted (inquiry.history resolved []) :=
    .answer inquiry hreturned hopened (by decide)
  obtain ⟨hiff, -⟩ := volumeAt?_iff_recorded settings settings nowhere [] ⟨.empty⟩ hmoves
  exact ⟨hmoves, (hiff volume.location (some "A")).1 (by decide)⟩

/-- A recorded volume need not belong to the root that carries it: `/m` is unmounted and mounted
again while `/m/f` is identified, so the root there is another one than that whose volume has been
probed, and has that volume on record. -/
theorem recorded_for_earlier_root :
    let nowhere : Environment := ⟨fun _ => none, none, fun _ => none, fun _ => false⟩
    let settings : Settings := { Settings.default with
      singleDirectories := [], recursiveDirectories := [], indexRemovable := true }
    let volume := Path.ofString "/m"
    let file := Path.ofString "/m/f"
    let attributes := (Attributes.empty.setFile file.location
      (.known ⟨.file, some 7, none, false⟩)).setVolume volume.location [some "A", some "B"]
    let planned := (new settings settings nowhere [] ⟨.empty⟩).start.step
      (.handle (.volume (.mounted ⟨volume, some "A", true⟩)))
    let found := ((Identification.plan planned.roots file).resolve attributes).1
    let e := planned.run [.handle (.call 1 (.identify file)),
      .handle (.volume (.unmounted volume)),
      .handle (.volume (.mounted ⟨volume, some "B", true⟩)), .handle (.resolved 1 found)]
    let told (event : RootEvent) : Option (Bool × Location) :=
      match event with
      | .added place _ => some (true, place)
      | .removed place _ => some (false, place)
      | _ => none
    found = .ok ⟨⟨"A", "7"⟩, some (volume.location, some "A")⟩ ∧
      e.roots.volumeAt? volume.location = some (some "A") ∧
      planned.crawled.filterMap told = [(true, volume.location)] ∧
      e.crawled.filterMap told =
        [(true, volume.location), (false, volume.location), (true, volume.location)] := by
  decide

end Engine

end IndexControl
