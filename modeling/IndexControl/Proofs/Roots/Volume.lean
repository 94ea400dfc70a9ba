import IndexControl.Identity
import IndexControl.Proofs.Roots.Queue

/-!
# The recorded volumes of roots

The first volume that is recorded for a root stays recorded as long as the root stays, whatever
becomes of its flags and of the other roots. It is forgotten with the root, even if the root is added
again at once; then the queue tells of its end.

## Main definitions

* `RootSet.volumeAt?`: what has been recorded at a place.
* `RootSet.Remembers`: a root stays, with what has been recorded for it.
* `RootSet.KeepsOrTells`: a root is remembered, or the queue tells of its end.

## Main results

* `RootSet.volumeAt?_recordVolume`: the first recording counts.
* `RootSet.Changes.keepsOrTells`: a root of whose end the queue does not tell is remembered.
* `Identification.resolve_plan`: what an identification answers, and what it has to record.
* `Identification.volumeAt?_resolved`: what is recorded when it has come back.
-/

namespace IndexControl

namespace RootSet

variable {P : Location → Prop} {s s' s'' : RootSet} {place q : Location}

/-- The result of the first probe of the volume of the root at a place. -/
def volumeAt? (s : RootSet) (place : Location) : Option (Option String) :=
  (s.root? place).bind (·.volume)

/-- Nothing is recorded where there is no root. -/
theorem isRoot_of_volumeAt? {volume : Option String} (h : s.volumeAt? q = some volume) :
    s.isRoot q = true := by
  obtain ⟨root, hroot, -⟩ := Option.bind_eq_some_iff.1 h
  exact isRoot_iff.2 ⟨root, hroot⟩

/-- What is known about the volume of a file is what has been recorded for its owner. -/
theorem lookupVolume_of_owner? {file root : Location} (h : s.owner? file = some root) :
    s.lookupVolume file = match s.volumeAt? root with
      | some volume => .known volume
      | none => .unprobed root := by
  simp only [lookupVolume, h]
  rfl

/-- The first recording counts, and it is made for one root. -/
theorem volumeAt?_recordVolume (s : RootSet) (place : Location) (volume : Option String)
    (q : Location) :
    (s.recordVolume place volume).1.volumeAt? q =
      if q = place ∧ s.isRoot place = true then some ((s.volumeAt? place).getD volume)
      else s.volumeAt? q := by
  rw [recordVolume]
  cases hroot : s.root? place with
  | none =>
    have hfree : ¬s.isRoot place = true := by
      rw [isRoot_iff, hroot]
      simp
    rw [if_neg fun h => hfree h.2]
  | some root =>
    have hrecorded : s.volumeAt? place = root.volume := by
      rw [volumeAt?, hroot, Option.bind_some]
    have hthere : s.isRoot place = true := isRoot_iff.2 ⟨root, hroot⟩
    cases hvolume : root.volume with
    | some recorded =>
      simp only [hvolume, hrecorded, Option.getD_some, hthere, and_true]
      split_ifs with hq
      · rw [hq, hrecorded, hvolume]
      · rfl
    | none =>
      have hanswer : (s.volumeAt? place).getD volume = volume := by
        rw [hrecorded, hvolume, Option.getD_none]
      simp only [hvolume, hthere, and_true, hanswer]
      simp only [volumeAt?, root?, OrderedMap.find?_insert]
      split_ifs <;> rfl

/-! ### What changes leave recorded -/

/-- Flags do not matter for what is recorded, and neither does what is done elsewhere. -/
theorem volumeAt?_add {volume : Option String} (h : s.volumeAt? q = some volume)
    (flags : Flags) (hroot : (s.add place flags).1.isRoot q = true) :
    (s.add place flags).1.volumeAt? q = some volume := by
  have hput (root : Root) (event : RootEvent)
      (hroot : q = place.canonical → root.volume = some volume) :
      (s.put place.canonical root event).volumeAt? q = some volume := by
    rw [volumeAt?, root?_put]
    split_ifs with hq
    · exact hroot hq
    · exact h
  have habsorb {t : RootSet} (ht : t.volumeAt? q = some volume)
      (hroot : (t.absorb place.canonical).isRoot q = true) :
      (t.absorb place.canonical).volumeAt? q = some volume := by
    obtain ⟨root, hroot⟩ := isRoot_iff.1 hroot
    rw [root?_absorb] at hroot
    split_ifs at hroot with hbelow
    rw [volumeAt?, root?_absorb, if_neg hbelow]
    exact ht
  rw [add] at hroot ⊢
  cases hthere : s.root? place.canonical with
  | some root =>
    simp only [hthere] at hroot ⊢
    have hupdated := hput { root with flags } (.updated place.canonical) fun hq => by
      rwa [hq, volumeAt?, hthere] at h
    split_ifs at hroot ⊢
    · exact h
    · exact habsorb hupdated hroot
    · exact hupdated
  | none =>
    cases habove : s.recursiveAbove? place.canonical with
    | some above => exact h
    | none =>
      simp only [hthere, habove] at hroot ⊢
      have hadded := hput ⟨flags, none⟩ (.added place.canonical flags) fun hq => by
        rw [hq, volumeAt?, hthere] at h
        contradiction
      split_ifs at hroot ⊢
      · exact habsorb hadded hroot
      · exact hadded

/-- One change leaves what is recorded for a root that stays. -/
theorem Change.volumeAt?_eq {volume : Option String} (h : Change P s s')
    (hq : s.volumeAt? q = some volume) (hroot : s'.isRoot q = true) :
    s'.volumeAt? q = some volume := by
  cases h with
  | add flags => exact volumeAt?_add hq flags hroot
  | restyle flags => exact volumeAt?_add hq flags hroot
  | remove place =>
    obtain ⟨root, hroot⟩ := isRoot_iff.1 hroot
    rw [root?_remove] at hroot
    split_ifs at hroot with hplace
    rw [volumeAt?, root?_remove, if_neg hplace]
    exact hq
  | notify file recursive => exact hq
  | updateAll => exact hq
  | recordVolume place volume =>
    rw [volumeAt?_recordVolume]
    split_ifs with hplace
    · rw [← hplace.1, hq]
      rfl
    · exact hq
  | setFilters filters => exact hq

/-- A root stays, with what has been recorded for it. -/
structure Remembers (q : Location) (s s' : RootSet) : Prop where
  isRoot : s.isRoot q = true → s'.isRoot q = true
  volumeAt? : ∀ volume, s.volumeAt? q = some volume → s'.volumeAt? q = some volume

theorem Remembers.refl (q : Location) (s : RootSet) : Remembers q s s := ⟨id, fun _ => id⟩

theorem Remembers.trans (h : Remembers q s s') (h' : Remembers q s' s'') : Remembers q s s'' where
  isRoot hq := h'.isRoot (h.isRoot hq)
  volumeAt? volume hq := h'.volumeAt? volume (h.volumeAt? volume hq)

/-- A root is remembered unless what was queued in between tells of its end. -/
def KeepsOrTells (q : Location) (s s' : RootSet) : Prop :=
  ∃ events, s'.events = s.events ++ events ∧
    ((∀ event ∈ events, event.ended? ≠ some q) → Remembers q s s')

theorem KeepsOrTells.refl (q : Location) (s : RootSet) : KeepsOrTells q s s :=
  ⟨[], (List.append_nil _).symm, fun _ => .refl q s⟩

theorem KeepsOrTells.trans (h : KeepsOrTells q s s') (h' : KeepsOrTells q s' s'') :
    KeepsOrTells q s s'' := by
  obtain ⟨events, hevents, hkept⟩ := h
  obtain ⟨events', hevents', hkept'⟩ := h'
  refine ⟨events ++ events', by rw [hevents', hevents, List.append_assoc], fun hended => ?_⟩
  obtain ⟨hearlier, hlater⟩ := List.forall_mem_append.1 hended
  exact (hkept hearlier).trans (hkept' hlater)

theorem Change.keepsOrTells (h : Change P s s') (q : Location) : KeepsOrTells q s s' := by
  obtain ⟨events, hevents, -, hmirror⟩ := h.tells
  refine ⟨events, hevents, fun hended => ?_⟩
  have hroot (hq : s.isRoot q = true) : s'.isRoot q = true := by
    rw [← mem_placeSet_iff, ← hmirror]
    exact RootEvent.mem_mirrorAll (mem_placeSet_iff.2 hq) hended
  exact ⟨hroot, fun volume hq => h.volumeAt?_eq hq (hroot (isRoot_of_volumeAt? hq))⟩

/-- A root of whose end the queue does not tell is remembered. -/
theorem Changes.keepsOrTells (h : Changes P s s') (q : Location) : KeepsOrTells q s s' := by
  induction h with
  | refl => exact .refl q s
  | tail _ hchange ih => exact ih.trans (hchange.keepsOrTells q)

end RootSet

namespace Identification

variable {s : RootSet} {file : Path} {root : Location} {a : Attributes} {r : Resolved}

/-- The identifier of a file with an owner is made of what has been recorded for the owner; if
nothing has, its volume is probed, and the identifier is made of the answer. -/
theorem resolve_plan (howner : s.owner? file.location = some root)
    (h : ((plan s file).resolve a).1 = .ok r) :
    ∃ info, a.query file.location = .ok info ∧
      r.id = .ofInfo ((s.volumeAt? root).getD (a.probe root).1) info ∧
      r.probed = if (s.volumeAt? root).isSome then none else some (root, (a.probe root).1) := by
  simp only [resolve, plan, RootSet.lookupVolume_of_owner? howner] at h
  cases hquery : a.query file.location with
  | error cause => simp [hquery] at h
  | ok info =>
    refine ⟨info, rfl, ?_⟩
    cases hvolume : s.volumeAt? root with
    | some volume =>
      simp only [hquery, hvolume] at h
      obtain rfl := Except.ok.inj h
      exact ⟨rfl, rfl⟩
    | none =>
      simp only [hquery, hvolume] at h
      obtain rfl := Except.ok.inj h
      exact ⟨rfl, rfl⟩

/-- What is recorded for the owner of a file when its identification has come back: what was recorded
before, or else the answer of its own probe. -/
theorem volumeAt?_resolved {earlier later : RootSet}
    (howner : earlier.owner? file.location = some root) (hkept : RootSet.Remembers root earlier later)
    (h : ((plan earlier file).resolve a).1 = .ok r) :
    (r.record later).volumeAt? root =
      some ((later.volumeAt? root).getD (a.probe root).1) := by
  obtain ⟨info, -, -, hprobed⟩ := resolve_plan howner h
  cases hvolume : earlier.volumeAt? root with
  | some volume =>
    have hlater := hkept.volumeAt? volume hvolume
    simp only [hvolume, Option.isSome_some, ↓reduceIte] at hprobed
    simp only [Resolved.record, hprobed, hlater, Option.getD_some]
  | none =>
    have hroot : later.isRoot root = true := hkept.isRoot (RootSet.isRoot_of_owner? howner)
    simp only [hvolume, Option.isSome_none, Bool.false_eq_true, ↓reduceIte] at hprobed
    simp only [Resolved.record, hprobed, RootSet.volumeAt?_recordVolume, hroot, and_self, ↓reduceIte]

end Identification

end IndexControl
