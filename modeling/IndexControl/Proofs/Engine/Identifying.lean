import IndexControl.Proofs.Engine.Mirror
import IndexControl.Proofs.Roots.Volume

/-!
# Identifications at the same time

The volume of a root is probed by every identification that begins before a volume has been recorded
for the root. The first one to come back records its answer, and this stays recorded as long as the
root stays. The others keep the identifiers that they have made of their own answers.

## Main definitions

* `Engine.Stays`: the crawler is told of no end of a root.

## Main results

* `Engine.Turns.keepsOrTells`: what has been recorded for a root that stays.
* `Engine.identified_volume_iff`: which identifications answer with the recorded volume.
-/

namespace IndexControl

namespace Engine

open RootSet Identification

variable {e e' : Engine} {root : Location}

/-- In between the crawler is told of no end of the root. -/
def Stays (root : Location) (e e' : Engine) : Prop :=
  ∃ news, e'.crawled = e.crawled ++ news ∧ ∀ event ∈ news, event.ended? ≠ some root

/-- A root is remembered unless what is told in between tells of its end. -/
theorem Turns.keepsOrTells (h : Turns e e') (root : Location) :
    ∃ news, e'.told = e.told ++ news ∧
      ((∀ event ∈ news, event.ended? ≠ some root) → Remembers root e.roots e'.roots) := by
  induction h with
  | refl => exact ⟨[], (List.append_nil _).symm, fun _ => .refl root e.roots⟩
  | tail _ hturn ih =>
    obtain ⟨news, htold, hkept⟩ := ih
    cases hturn with
    | change hroots hcrawled =>
      obtain ⟨events, hevents, hchanged⟩ := hroots.keepsOrTells root
      refine ⟨news ++ events, ?_, fun hended => ?_⟩
      · rw [told, hcrawled, hevents, ← List.append_assoc, ← List.append_assoc, ← htold, told]
      · obtain ⟨hearlier, hlater⟩ := List.forall_mem_append.1 hended
        exact (hkept hearlier).trans (hchanged hlater)
    | dispatch =>
      refine ⟨news, (told_dispatch _).trans htold, fun hended => ?_⟩
      exact ⟨(hkept hended).isRoot, (hkept hended).volumeAt?⟩

/-- A root that stays is remembered. -/
theorem InStep.remembers (h : e.InStep) (moves : List EngineMove)
    (hstays : e.Stays root (e.run moves)) : Remembers root e.roots (e.run moves).roots := by
  obtain ⟨news, hnews, hended⟩ := hstays
  obtain ⟨news', hnews', hkept⟩ := (turns_run e moves).keepsOrTells root
  rw [told, told, (h.run moves).quiet, h.quiet, List.append_nil, List.append_nil, hnews] at hnews'
  exact hkept (List.append_cancel_left hnews' ▸ hended)

/-- **Identifications agree but for those that probe at the same time.** A file is identified while
anything else happens, and the root that owned it at the beginning stays until the answer is given.
Then a volume is recorded for the root: the one that was recorded before the answer came back, or else
the answer of its own probe. It stays recorded as long as the root stays. The identifier is made of
this volume, or of that of the file system if the recorded one is missing, exactly if it was recorded
already when the identification began or the identification's own probe comes to the same. -/
theorem identified_volume_iff (buffered settings : Settings) (environment : Environment)
    (systemLocations : List Location) (disk : Disk) (earlier between : List EngineMove)
    (number : Nat) {file : Path} {a : Attributes} {r : Resolved} :
    let e := (new buffered settings environment systemLocations disk).start.run earlier
    let asked := e.step (.handle (.call number (.identify file)))
    let returned := asked.run between
    let answered := returned.step (.handle (.resolved number (.ok r)))
    e.roots.owner? file.location = some root →
    e.Stays root returned →
    ((Identification.plan e.roots file).resolve a).1 = .ok r →
    asked.outbox = e.outbox ++ [.identify number (.plan e.roots file)] ∧
    answered.outbox = returned.outbox ++ [.answer number (.identify (.ok r.id))] ∧
    ∃ info recorded, a.query file.location = .ok info ∧
      recorded = (returned.roots.volumeAt? root).getD (a.probe root).1 ∧
      answered.roots.volumeAt? root = some recorded ∧
      (∀ later, answered.Stays root (answered.run later) →
        (answered.run later).roots.volumeAt? root = some recorded) ∧
      (r.id = .ofInfo recorded info ↔ e.roots.volumeAt? root = some recorded ∨
        ContentId.ofInfo (a.probe root).1 info = .ofInfo recorded info) := by
  intro e asked returned answered howner hstays hresolve
  have hstep : e.InStep :=
    (inStep_start buffered settings environment systemLocations disk).run earlier
  have hkept : Remembers root e.roots returned.roots :=
    hstep.remembers (.handle (.call number (.identify file)) :: between) hstays
  obtain ⟨info, hquery, hid, -⟩ := Identification.resolve_plan howner hresolve
  have hrecorded := volumeAt?_resolved howner hkept hresolve
  have hanswered : answered.InStep := ((hstep.step _).run between).step _
  refine ⟨rfl, rfl, info, _, hquery, rfl, hrecorded, fun later hlater => ?_, ?_⟩
  · exact (hanswered.remembers later hlater).volumeAt? _ hrecorded
  · cases hvolume : e.roots.volumeAt? root with
    | some volume =>
      have hlater := hkept.volumeAt? volume hvolume
      rw [hvolume] at hid
      simp [hid, hlater]
    | none =>
      rw [hvolume, Option.getD_none] at hid
      simp [hid]

/-- The first of two identifications of `/r/f` to begin and the last one to come back: both have probed
the volume of `/r`, which has answered `A` to the other one and `B` to it. -/
theorem identified_volume_iff_overtaken :
    let nowhere : Environment := ⟨fun _ => none, none, fun _ => none, fun _ => false⟩
    let settings : Settings :=
      { Settings.default with singleDirectories := [], recursiveDirectories := ["/r"] }
    let root := (Path.ofString "/r").location
    let file := Path.ofString "/r/f"
    let files := Attributes.empty.setFile file.location (.known ⟨.file, some 7, none, false⟩)
    let answering (volume : String) := files.setVolume root [some volume]
    let resolved (volume : String) : Resolved := ⟨⟨volume, "7"⟩, some (root, some volume)⟩
    let e := (new settings settings nowhere [] ⟨.empty⟩).start
    let between : List EngineMove :=
      [.handle (.call 2 (.identify file)), .handle (.resolved 2 (.ok (resolved "A")))]
    let returned := (e.step (.handle (.call 1 (.identify file)))).run between
    let answered := returned.step (.handle (.resolved 1 (.ok (resolved "B"))))
    e.roots.owner? file.location = some root ∧ e.Stays root returned ∧
      ((Identification.plan e.roots file).resolve (answering "B")).1 = .ok (resolved "B") ∧
      ∃ info recorded, (answering "B").query file.location = .ok info ∧
        answered.roots.volumeAt? root = some recorded ∧
        ((resolved "B").id = .ofInfo recorded info ↔ e.roots.volumeAt? root = some recorded ∨
          ContentId.ofInfo ((answering "B").probe root).1 info = .ofInfo recorded info) := by
  intro nowhere settings root file files answering resolved e between returned answered
  have howner : e.roots.owner? file.location = some root := by decide
  have hstays : e.Stays root returned :=
    ⟨[], by decide, fun _ h => absurd h List.not_mem_nil⟩
  have hresolve : ((Identification.plan e.roots file).resolve (answering "B")).1 =
      .ok (resolved "B") := by decide
  obtain ⟨-, -, info, recorded, hquery, -, hrecorded, -, hiff⟩ := identified_volume_iff settings
    settings nowhere [] ⟨.empty⟩ [] between 1 howner hstays hresolve
  exact ⟨howner, hstays, hresolve, info, recorded, hquery, hrecorded, hiff⟩

/-- Two identifiers for one file: both identifications of `/r/f` begin before a volume has been recorded
for `/r`. The first one to come back records `A` and answers with it; the other one answers with `B`,
while `A` is recorded. -/
theorem identified_apart_after_recording :
    let nowhere : Environment := ⟨fun _ => none, none, fun _ => none, fun _ => false⟩
    let settings : Settings :=
      { Settings.default with singleDirectories := [], recursiveDirectories := ["/r"] }
    let root := (Path.ofString "/r").location
    let file := Path.ofString "/r/f"
    let attributes := (Attributes.empty.setFile file.location
      (.known ⟨.file, some 7, none, false⟩)).setVolume root [some "A", some "B"]
    let started := (new settings settings nowhere [] ⟨.empty⟩).start
    let e := started.run
      [.handle (.call 1 (.identify file)), .handle (.call 2 (.identify file))]
    let first := (Identification.plan e.roots file).resolve attributes
    let second := (Identification.plan e.roots file).resolve first.2
    let recorded := e.step (.handle (.resolved 1 first.1))
    let answered := recorded.step (.handle (.resolved 2 second.1))
    let identified (effect : Effect) : Option (Nat × ContentId) :=
      match effect with
      | .answer number (.identify (.ok id)) => some (number, id)
      | _ => none
    recorded.roots.volumeAt? root = some (some "A") ∧
      answered.roots.volumeAt? root = some (some "A") ∧ answered.crawled = started.crawled ∧
      answered.outbox.filterMap identified = [(1, ⟨"A", "7"⟩), (2, ⟨"B", "7"⟩)] := by
  decide

end Engine

end IndexControl
