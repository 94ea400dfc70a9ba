import IndexControl.Proofs.Roots.Volume

/-!
# The volume of a root in its life

From the time when a root is added to the time when it is removed or folded into another one, its
volume is probed at most once, and what has been recorded for it stays. Files are identified one
after the other here, between any other changes of the set, and whoever is asked about files and
volumes may answer as they like each time.

## Main definitions

* `Occurrence`, `RootSet.occur`, `RootSet.history`: what happens to a set of roots.
* `RootSet.probed?`, `RootSet.probes`: the roots whose volumes are asked for on the way.
* `RootSet.Lives`: a root is there all the time.

## Main results

* `Identification.attributes_identify`: which question an identification asks about volumes.
* `RootSet.Lives.volumeAt?_history`: what has been recorded for a root stays recorded.
* `RootSet.Lives.probed_once`: the volume of a root in its life.
-/

namespace IndexControl

open Identification

/-- Something that happens to a set of roots: a change, or a complete identification of a file with
the answers that are given at this time. -/
inductive Occurrence where
  | change (op : RootOp)
  | identify (a : Attributes) (file : Path)

namespace RootSet

variable {s : RootSet} {place root : Location} {a : Attributes} {file : Path}

/-! ### What happens to a set of roots -/

/-- What an occurrence makes of the roots. -/
def occur (s : RootSet) : Occurrence → RootSet
  | .change op => s.apply op
  | .identify a file => (identify a s file).2.1

/-- What several occurrences make of the roots, one after the other. -/
def history (s : RootSet) (during : List Occurrence) : RootSet := during.foldl occur s

/-- The root whose volume an occurrence asks for. -/
def probed? (s : RootSet) : Occurrence → Option Location
  | .change _ => none
  | .identify a file => ((plan s file).resolve a).1.toOption.bind fun r => r.probed.map (·.1)

/-- The roots whose volumes are asked for on the way, in order. -/
def probes (s : RootSet) : List Occurrence → List Location
  | [] => []
  | occurrence :: rest => (s.probed? occurrence).toList ++ (s.occur occurrence).probes rest

/-- There is a root at a place all the time. -/
def Lives (s : RootSet) (place : Location) : List Occurrence → Prop
  | [] => s.isRoot place = true
  | occurrence :: rest => s.isRoot place = true ∧ (s.occur occurrence).Lives place rest

instance decidableLives (place : Location) :
    (s : RootSet) → (during : List Occurrence) → Decidable (s.Lives place during)
  | s, [] => inferInstanceAs (Decidable (s.isRoot place = true))
  | s, occurrence :: rest =>
    have := decidableLives place (s.occur occurrence) rest
    inferInstanceAs (Decidable (_ ∧ _))

theorem history_append (s : RootSet) (earlier later : List Occurrence) :
    s.history (earlier ++ later) = (s.history earlier).history later := List.foldl_append

theorem Lives.isRoot {during : List Occurrence} (h : s.Lives place during) :
    s.isRoot place = true := by
  cases during with
  | nil => exact h
  | cons occurrence rest => exact h.1

theorem Lives.of_append {earlier later : List Occurrence} (h : s.Lives place (earlier ++ later)) :
    s.Lives place earlier ∧ (s.history earlier).Lives place later := by
  induction earlier generalizing s with
  | nil => exact ⟨h.isRoot, h⟩
  | cons occurrence earlier ih =>
    obtain ⟨hrest, hlater⟩ := ih h.2
    exact ⟨⟨h.1, hrest⟩, hlater⟩

end RootSet

/-! ### One occurrence -/

namespace Identification

open RootSet

variable {s : RootSet} {place root : Location} {a : Attributes} {file : Path}

/-- An identification asks for the volume of the root that it probes, and for no other. -/
theorem attributes_identify (a : Attributes) (s : RootSet) (file : Path) :
    (identify a s file).2.2 =
      (s.probed? (.identify a file)).elim a fun root => (a.probe root).2 := by
  simp only [identify, probed?, resolve, plan]
  cases a.query file.location with
  | error cause => rfl
  | ok info => cases s.lookupVolume file.location <;> rfl

/-- Where the file cannot be asked about, nothing is probed or recorded. -/
theorem identify_error {cause : ServiceError} (h : (identify a s file).1 = .error cause) :
    ∃ error, a.query file.location = .error error ∧ cause = failure file error ∧
      identify a s file = (.error cause, s, a) := by
  simp only [identify, resolve, plan] at h ⊢
  cases hquery : a.query file.location with
  | error error =>
    simp only [hquery, Except.error.injEq] at h
    subst h
    exact ⟨error, rfl, rfl, rfl⟩
  | ok info =>
    simp only [hquery] at h
    cases hlookup : s.lookupVolume file.location <;> simp [hlookup] at h

/-- Resolving is what an identification answers, and recording what it leaves. -/
theorem identify_of_resolve {r : Resolved} (h : ((plan s file).resolve a).1 = .ok r) :
    (identify a s file).1 = .ok r.id ∧ s.occur (.identify a file) = r.record s := by
  simp only [occur, identify]
  generalize (plan s file).resolve a = result at h
  obtain ⟨answer, a'⟩ := result
  subst h
  exact ⟨rfl, rfl⟩

theorem exists_resolve_of_identify {id : ContentId} (h : (identify a s file).1 = .ok id) :
    ∃ r, ((plan s file).resolve a).1 = .ok r := by
  rw [identify] at h
  generalize (plan s file).resolve a = result at h
  obtain ⟨answer, a'⟩ := result
  cases answer with
  | error cause => contradiction
  | ok r => exact ⟨r, rfl⟩

/-- What an identification answers about a file with an owner, and what is recorded then. -/
theorem identify_ok {id : ContentId} (howner : s.owner? file.location = some root)
    (h : (identify a s file).1 = .ok id) :
    ∃ info, a.query file.location = .ok info ∧
      id = .ofInfo ((s.volumeAt? root).getD (a.probe root).1) info ∧
      (s.occur (.identify a file)).volumeAt? root =
        some ((s.volumeAt? root).getD (a.probe root).1) := by
  obtain ⟨r, hresolve⟩ := exists_resolve_of_identify h
  obtain ⟨hanswer, hrecord⟩ := identify_of_resolve hresolve
  obtain ⟨info, hquery, hid, -⟩ := resolve_plan howner hresolve
  refine ⟨info, hquery, ?_, ?_⟩
  · rw [hanswer] at h
    exact (Except.ok.inj h).symm.trans hid
  · rw [hrecord]
    exact volumeAt?_resolved howner (.refl root s) hresolve

/-- The volume that is asked for is that of the owner, for which none has been recorded. -/
theorem probed?_identify (h : s.probed? (.identify a file) = some root) :
    s.owner? file.location = some root ∧ s.volumeAt? root = none ∧
      ∃ r, ((plan s file).resolve a).1 = .ok r := by
  obtain ⟨r, hanswer, hasked⟩ := Option.bind_eq_some_iff.1 h
  have hresolve : ((plan s file).resolve a).1 = .ok r := by
    cases hresult : ((plan s file).resolve a).1 with
    | error cause => simp [hresult, Except.toOption] at hanswer
    | ok r' => simpa [hresult, Except.toOption] using hanswer
  obtain ⟨⟨probed, volume⟩, hprobed, rfl⟩ := Option.map_eq_some_iff.1 hasked
  cases howner : s.owner? file.location with
  | none =>
    have hlookup : s.lookupVolume file.location = .uncovered := by rw [lookupVolume, howner]
    simp only [resolve, plan, hlookup] at hresolve
    cases hquery : a.query file.location with
    | error error => simp [hquery] at hresolve
    | ok info =>
      simp only [hquery, Except.ok.injEq] at hresolve
      simp [← hresolve] at hprobed
  | some owner =>
    obtain ⟨-, -, -, hrecord⟩ := resolve_plan howner hresolve
    rw [hprobed] at hrecord
    split_ifs at hrecord with hknown
    obtain ⟨rfl, -⟩ := Prod.mk.inj (Option.some.inj hrecord)
    exact ⟨rfl, by simpa using hknown, r, hresolve⟩

end Identification

namespace RootSet

variable {s : RootSet} {place : Location} {occurrence : Occurrence}

/-- A root whose volume is asked for has none recorded before, and one afterwards. -/
theorem volumeAt?_of_probed? (h : s.probed? occurrence = some place) :
    s.volumeAt? place = none ∧ ∃ volume, (s.occur occurrence).volumeAt? place = some volume := by
  cases occurrence with
  | change op => contradiction
  | identify a file =>
    obtain ⟨howner, hnone, r, hresolve⟩ := probed?_identify h
    obtain ⟨hanswer, -⟩ := identify_of_resolve hresolve
    obtain ⟨-, -, -, hrecorded⟩ := identify_ok howner hanswer
    exact ⟨hnone, _, hrecorded⟩

/-- What has been recorded for a root stays as long as the root does. -/
theorem volumeAt?_occur {volume : Option String} (h : s.volumeAt? place = some volume)
    (hroot : (s.occur occurrence).isRoot place = true) :
    (s.occur occurrence).volumeAt? place = some volume := by
  cases occurrence with
  | change op =>
    rcases s.change_apply op with hchange | hsame
    · exact hchange.volumeAt?_eq h hroot
    · rw [occur, volumeAt?, hsame]
      exact h
  | identify a file =>
    cases hanswer : (identify a s file).1 with
    | error cause =>
      obtain ⟨-, -, -, hnothing⟩ := identify_error hanswer
      rw [occur, hnothing]
      exact h
    | ok id =>
      obtain ⟨r, hresolve⟩ := exists_resolve_of_identify hanswer
      obtain ⟨-, hrecord⟩ := identify_of_resolve hresolve
      rw [hrecord, Resolved.record] at hroot ⊢
      cases hprobed : r.probed with
      | none => exact h
      | some probed =>
        rw [hprobed] at hroot
        have hchange : Change (fun _ => True) s (s.recordVolume probed.1 probed.2).1 :=
          .recordVolume probed.1 probed.2
        exact hchange.volumeAt?_eq h hroot

/-! ### The life of a root -/

variable {during : List Occurrence}

theorem Lives.volumeAt?_history {volume : Option String} (h : s.Lives place during)
    (hvolume : s.volumeAt? place = some volume) :
    (s.history during).volumeAt? place = some volume := by
  induction during generalizing s with
  | nil => exact hvolume
  | cons occurrence rest ih => exact ih h.2 (volumeAt?_occur hvolume h.2.isRoot)

/-- Once a volume has been recorded, it is not asked for any more. -/
theorem Lives.count_probes_of_volumeAt? {volume : Option String} (h : s.Lives place during)
    (hvolume : s.volumeAt? place = some volume) : (s.probes during).count place = 0 := by
  induction during generalizing s with
  | nil => rfl
  | cons occurrence rest ih =>
    have hother : place ∉ (s.probed? occurrence).toList := fun hmem => by
      obtain ⟨hnone, -⟩ := volumeAt?_of_probed? (Option.mem_toList.1 hmem)
      rw [hnone] at hvolume
      contradiction
    rw [probes, List.count_append, List.count_eq_zero.2 hother, Nat.zero_add]
    exact ih h.2 (volumeAt?_occur hvolume h.2.isRoot)

/-- The volume of a root is asked for at most once as long as the root is there. -/
theorem Lives.count_probes_le_one (h : s.Lives place during) :
    (s.probes during).count place ≤ 1 := by
  induction during generalizing s with
  | nil => exact Nat.zero_le 1
  | cons occurrence rest ih =>
    rw [probes, List.count_append]
    by_cases hprobed : s.probed? occurrence = some place
    · obtain ⟨-, volume, hvolume⟩ := volumeAt?_of_probed? hprobed
      rw [h.2.count_probes_of_volumeAt? hvolume, hprobed]
      simp
    · have hother : place ∉ (s.probed? occurrence).toList := fun hmem =>
        hprobed (Option.mem_toList.1 hmem)
      rw [List.count_eq_zero.2 hother, Nat.zero_add]
      exact ih h.2

/-- **The volume of a root is probed at most once in its life.** As long as a root stays, through
any changes of the set and complete identifications, whatever each of these is told about files and
volumes: the volume of the root is asked for at most once, and what has been recorded for it stays.
An identification that succeeds with a file of the root leaves a volume recorded for the root and
answers with this volume, or with that of the file system, if any, where the recorded one is
missing. Whatever file is identified, just the volume that counts as probed is asked for, and an
identification that fails, because the file cannot be asked about, asks for no volume and leaves the
roots as they are. -/
theorem Lives.probed_once (h : s.Lives place during) :
    (s.probes during).count place ≤ 1 ∧
    (∀ earlier later volume, during = earlier ++ later →
      (s.history earlier).volumeAt? place = some volume →
      (s.history during).volumeAt? place = some volume) ∧
    ∀ earlier a file later, during = earlier ++ .identify a file :: later →
      let now := s.history earlier
      let next := now.occur (.identify a file)
      (∀ id, (identify a now file).1 = .ok id → now.owner? file.location = some place →
        ∃ info volume, a.query file.location = .ok info ∧ next.volumeAt? place = some volume ∧
          id.volume = volume.getD (info.fileSystem.getD "")) ∧
      ((identify a now file).2.2 =
        (now.probed? (.identify a file)).elim a fun root => (a.probe root).2) ∧
      ∀ cause, (identify a now file).1 = .error cause →
        (∃ error, a.query file.location = .error error ∧ cause = failure file error) ∧
          next = now ∧ (identify a now file).2.2 = a := by
  refine ⟨h.count_probes_le_one, fun earlier later volume hsplit hvolume => ?_,
    fun earlier a file later hsplit => ⟨fun id hok howner => ?_, attributes_identify .., ?_⟩⟩
  · subst hsplit
    rw [history_append]
    exact h.of_append.2.volumeAt?_history hvolume
  · obtain ⟨info, hquery, rfl, hrecorded⟩ := identify_ok howner hok
    refine ⟨info, _, hquery, hrecorded, ?_⟩
    rw [ContentId.ofInfo]
    cases ((s.history earlier).volumeAt? place).getD (a.probe place).1 <;> rfl
  · intro cause herror
    obtain ⟨error, hquery, hcause, hnothing⟩ := identify_error herror
    refine ⟨⟨error, hquery, hcause⟩, ?_, ?_⟩
    · rw [occur, hnothing]
    · rw [hnothing]

/-- The volume of `/r` answers `A` to the first identification. Its flags are changed in between,
and the second identification does not hear that the volume answers `B` by then. -/
theorem Lives.probed_once_restyled :
    let root := (Path.ofString "/r").location
    let files := (Attributes.empty.setFile (Path.ofString "/r/f").location
      (.known ⟨.file, some 7, none, false⟩)).setFile (Path.ofString "/r/g").location
      (.known ⟨.file, some 8, some "F", false⟩)
    let s := ((empty default).add root .recurse).1
    let earlier : List Occurrence :=
      [.identify (files.setVolume root [some "A"]) (Path.ofString "/r/f"),
        .change (.add (Path.ofString "/r") .onDemand)]
    let a := files.setVolume root [some "B"]
    let file := Path.ofString "/r/g"
    let during := earlier ++ [.identify a file]
    s.Lives root during ∧ (s.probes during).count root ≤ 1 ∧
      (identify a (s.history earlier) file).1 = .ok ⟨"A", "8"⟩ ∧
      ∃ info volume, a.query file.location = .ok info ∧
        ((s.history earlier).occur (.identify a file)).volumeAt? root = some volume ∧
        "A" = volume.getD (info.fileSystem.getD "") := by
  intro root files s earlier a file during
  have hlives : s.Lives root during := by decide
  have hanswer : (identify a (s.history earlier) file).1 = .ok ⟨"A", "8"⟩ := by decide
  obtain ⟨hcount, hkept, hidentify⟩ := hlives.probed_once
  obtain ⟨info, volume, hquery, hvolume, hid⟩ :=
    (hidentify earlier a file [] rfl).1 _ hanswer (by decide)
  exact ⟨hlives, hcount, hanswer, info, volume, hquery, hvolume, hid⟩

end RootSet

end IndexControl
