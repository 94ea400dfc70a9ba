import IndexControl.Proofs.Steward.Removable
import IndexControl.Proofs.Steward.Unmounting

/-!
# Roots that go and come with a volume

A removable volume takes the root at its place along when it goes, and any other volume all roots at
its place and below. A volume that comes brings back other roots than it has taken: a removable one
its own root, if such volumes are indexed, and any other one the configured directories on it.

## Main definitions

* `Mount.takes`: the roots that go with a volume.
* `Steward.Brings`: the places that are owned by what comes with a volume.

## Main results

* `Steward.flagsAt?_unmount`: what a volume that goes leaves.
* `Steward.isOwned_mount_iff`: what a volume that comes has owned.
-/

namespace IndexControl

/-- Whether a root goes with a volume: the one at the place of a removable volume, and any root at
the place of another volume or below. -/
def Mount.takes (m : Mount) (root : Location) : Bool :=
  if m.removable then root = m.path.location.canonical else root.startsWith m.path.location

namespace Steward

open RootSet

variable {w : Steward} {s : RootSet} {m : Mount} {q : Location}

/-- What comes with a volume owns a place: the root of a removable volume, if such volumes are
indexed, and the roots of the configured directories on another one, as far as they may be indexed
at all. -/
def Brings (w : Steward) (m : Mount) (q : Location) : Prop :=
  if m.removable then
    w.indexRemovable = true ∧ w.isSystemLocation m.path.location = false ∧
      q.startsWith m.path.location.canonical = true
  else
    ∃ d ∈ w.configured, w.isSystemLocation d.1 = false ∧ d.1.startsWith m.path.location = true ∧
      (q = d.1 ∨ d.2 = true ∧ q.isBelow d.1 = true)

/-! ### A volume that goes -/

/-- A volume that goes leaves the roots that it does not take. -/
theorem flagsAt?_unmount (h : s.WellFormed) (hm : w.mounts.find? m.path.location = some m)
    (q : Location) :
    (w.unmount s m.path).2.flagsAt? q = if m.takes q then none else s.flagsAt? q := by
  cases hremovable : m.removable with
  | true =>
    simp only [unmount, hm, hremovable, ↓reduceIte, Mount.takes, flagsAt?_remove,
      decide_eq_true_iff]
  | false =>
    simp only [unmount_fixed_eq h hm hremovable, flagsAt?, root?_takeOut_filter, Mount.takes,
      hremovable, Bool.false_eq_true, ↓reduceIte]
    split_ifs <;> rfl

theorem steward_unmount (hm : w.mounts.find? m.path.location = some m) (s : RootSet) :
    (w.unmount s m.path).1 = { w with mounts := w.mounts.erase m.path.location } := by
  simp only [unmount, hm]
  split <;> rfl

/-! ### A volume that comes -/

/-- The places among some that lie on a volume and may be indexed. -/
def permittedOn (w : Steward) (volume : Location) (places : List Location) : List Location :=
  w.permitted (places.filter (·.startsWith volume))

theorem mem_permittedOn_iff {volume : Location} {places : List Location} :
    q ∈ w.permittedOn volume places ↔
      q ∈ places ∧ w.isSystemLocation q = false ∧ q.startsWith volume = true := by
  rw [permittedOn, mem_permitted_iff, List.mem_filter, and_assoc, and_comm (a := _ = true)]

/-- The configured directories on a volume are added like all configured ones: the single ones
first. -/
theorem syncRootsOn_eq (w : Steward) (s : RootSet) (volume : Location) :
    w.syncRootsOn s volume =
      (s.addEach (w.flagsFor · false) (w.permittedOn volume w.directories.singlePlaces)).addEach
        (w.flagsFor · true) (w.permittedOn volume w.directories.recursivePlaces) := by
  have hfilter (places : List Location) (recursive : Bool) :
      (places.map (·, recursive)).filter (·.1.startsWith volume) =
        (places.filter (·.startsWith volume)).map (·, recursive) := List.filter_map
  rw [permittedOn, permittedOn, ← addConfigured_map, ← addConfigured_map, syncRootsOn, configured_eq,
    List.filter_append, hfilter, hfilter, addConfigured, List.foldl_append]
  rfl

/-- Where no recursive root is left on a volume, the configured directories on it are owned when they
have been added, and what was so before. -/
theorem isOwned_syncRootsOn_iff (hd : w.directories.Canonical) (h : s.WellFormed) {volume : Location}
    (hnone : ∀ root, root.startsWith volume = true → s.isRoot root = false) :
    (w.syncRootsOn s volume).IsOwned q ↔ s.IsOwned q ∨ ∃ d ∈ w.configured,
      w.isSystemLocation d.1 = false ∧ d.1.startsWith volume = true ∧
        (q = d.1 ∨ d.2 = true ∧ q.isBelow d.1 = true) := by
  have hsingle : ∀ place ∈ w.permittedOn volume w.directories.singlePlaces, place.IsCanonical :=
    fun place hplace => hd.single_isCanonical place (mem_permittedOn_iff.1 hplace).1
  have hrecursive : ∀ place ∈ w.permittedOn volume w.directories.recursivePlaces,
      place.IsCanonical :=
    fun place hplace => hd.recursive_isCanonical place (mem_permittedOn_iff.1 hplace).1
  have hnew : ∀ place ∈ w.permittedOn volume w.directories.singlePlaces,
      s.isRecursiveRoot place = false := by
    intro place hplace
    have hroot := hnone place (mem_permittedOn_iff.1 hplace).2.2
    exact Bool.eq_false_iff.2 fun hrec =>
      Bool.noConfusion (hroot.symm.trans (isRoot_of_isRecursiveRoot hrec))
  rw [syncRootsOn_eq, (h.addEach hsingle).isOwned_addEach_iff hrecursive
    fun place => isRecursive_flagsFor w place true, h.isOwned_addEach_plain_iff hsingle
    (fun place => isRecursive_flagsFor w place false) hnew, or_assoc]
  refine or_congr_right ⟨?_, ?_⟩
  · rintro (hq | ⟨place, hplace, hq⟩)
    · obtain ⟨hmem, hallowed, hon⟩ := mem_permittedOn_iff.1 hq
      exact ⟨(q, false), mem_configured_iff.2 hmem, hallowed, hon, .inl rfl⟩
    · obtain ⟨hmem, hallowed, hon⟩ := mem_permittedOn_iff.1 hplace
      exact ⟨(place, true), mem_configured_iff.2 hmem, hallowed, hon,
        (Location.startsWith_iff_eq_or_isBelow.1 hq).imp_right fun hbelow => ⟨rfl, hbelow⟩⟩
  · rintro ⟨⟨place, recursive⟩, hmem, hallowed, hon, hq⟩
    have hmem := mem_configured_iff.1 hmem
    cases recursive with
    | false =>
      obtain rfl := hq.resolve_right fun h => Bool.noConfusion h.1
      exact .inl (mem_permittedOn_iff.2 ⟨hmem, hallowed, hon⟩)
    | true =>
      exact .inr ⟨place, mem_permittedOn_iff.2 ⟨hmem, hallowed, hon⟩,
        Location.startsWith_iff_eq_or_isBelow.2 (hq.imp_right (·.2))⟩

/-- Where no root is left that would go with a volume, just what comes with it is owned in addition
when it comes. -/
theorem isOwned_mount_iff (hd : w.directories.Canonical) (h : s.WellFormed)
    (hnone : ∀ root, m.takes root = true → s.isRoot root = false) :
    (w.mount s m).2.IsOwned q ↔ s.IsOwned q ∨ w.Brings m q := by
  let v : Steward := { w with mounts := w.mounts.insert m.path.location m }
  have hv : v.directories.Canonical := hd
  simp only [mount, Brings, Mount.takes] at hnone ⊢
  cases hremovable : m.removable with
  | true =>
    simp only [↓reduceIte]
    cases hindexed : w.indexRemovable with
    | false => simp
    | true =>
      have hplace := Location.isCanonical_canonical m.path.location_isSpelled
      have hallowed : v.isSystemLocation m.path.location = w.isSystemLocation m.path.location := rfl
      simp only [↓reduceIte, true_and]
      change (v.addDirectory s m.path.location v.volumeFlags).IsOwned q ↔ _
      rw [addDirectory, hallowed]
      cases w.isSystemLocation m.path.location with
      | true => simp
      | false =>
        simp only [Bool.false_eq_true, ↓reduceIte, true_and]
        rw [← add_canonical, h.isOwned_add_iff hplace (isRecursive_volumeFlags v)]
  | false =>
    simp only [hremovable, Bool.false_eq_true, ↓reduceIte] at hnone ⊢
    exact isOwned_syncRootsOn_iff (w := v) hv h hnone

end Steward

end IndexControl
