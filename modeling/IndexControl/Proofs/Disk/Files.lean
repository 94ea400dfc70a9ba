import IndexControl.Proofs.Disk.Walking
import IndexControl.Proofs.Path.Joining

/-!
# Files that are read again

What is written into a file is read from it afterwards, whether the file is written in place or put
in the place of another, and making directories makes nothing but directories.

## Main definitions

* `Disk.GainsDirectories`: the disk has nothing new but directories.
* `Disk.Receives`: a file can be put under a name and be read there.

## Main results

* `Disk.gainsDirectories_makeDirs`: making directories takes nothing away.
* `Disk.makeDirs_of_read_join`: above a file that can be read there is nothing to make.
* `Disk.read_of_write`: what is written is read, unless it goes to a device.
* `Disk.Receives.replace`: what is put in place is read, and can be replaced again.
-/

namespace IndexControl

theorem Path.bytes_subset_join (dir : Path) {name : Path} (hname : slash ∉ name.bytes) :
    dir.bytes.length ≤ (dir.join name).bytes.length ∧ dir.bytes ⊆ (dir.join name).bytes := by
  rw [join, if_neg (by simp [isAbsolute_of_slash_notMem hname])]
  split <;> simp

namespace Disk

variable {disk disk' : Disk} {path : Path} {purpose : Purpose} {spot : Spot} {bytes : List UInt8}

/-! ### Where paths lead -/

theorem walk_eq_ok_iff :
    disk.walk purpose path = .ok spot ↔
      (0 ∉ path.bytes ∧ path.bytes ≠ [] ∧ path.bytes.length ≤ pathLimit) ∧
        disk.walkPieces purpose linkLimit [] (Path.split path.bytes) = .ok spot := by
  rw [walk]
  split
  · next h => simp_all
  · split
    · next h => simp_all
    · split
      · next h => simp [Nat.not_le.2 h]
      · next hzero hempty hlong => simp_all

theorem target?_eq_ok_iff {node : Node} :
    disk.target? path = .ok node ↔
      ∃ place, disk.walk .target path = .ok (.found place) ∧ disk.node? place = some node := by
  rw [target?]
  split
  · next h => simp [h]
  · next h => simp [h]
  · next place h => split <;> simp_all

/-- A file that can be read is something that its path leads to. -/
theorem exists_walk_of_read (h : disk.read path = .ok bytes) :
    ∃ place, disk.walk .target path = .ok (.found place) := by
  rw [read] at h
  split at h
  · cases h
  · next hnode => exact (target?_eq_ok_iff.1 hnode).imp fun _ h => h.1
  · cases h
  · next node _ _ hnode => exact (target?_eq_ok_iff.1 hnode).imp fun _ h => h.1

theorem read_of_walk {place : Place} (hwalk : disk.walk .target path = .ok (.found place))
    (hfile : disk.node? place = some (.file bytes)) : disk.read path = .ok bytes := by
  rw [read, target?_eq_ok_iff.2 ⟨place, hwalk, hfile⟩]

/-! ### Making directories -/

/-- Nothing but directories has come to a disk, and nothing has gone. -/
def GainsDirectories (disk disk' : Disk) : Prop :=
  ∀ place, disk'.node? place = disk.node? place ∨
    disk.node? place = none ∧ disk'.node? place = some .directory

theorem GainsDirectories.refl (disk : Disk) : disk.GainsDirectories disk := fun _ => .inl rfl

theorem GainsDirectories.trans {disk'' : Disk} (h : disk.GainsDirectories disk')
    (h' : disk'.GainsDirectories disk'') : disk.GainsDirectories disk'' := by
  intro place
  have hplace := h place
  have hplace' := h' place
  grind

theorem gainsDirectories_makeDir (disk : Disk) (path : Path) :
    disk.GainsDirectories (disk.makeDir path).2 := by
  rw [makeDir]
  split
  · exact .refl _
  · exact .refl _
  · next place hwalk =>
    have hnone : disk.node? place = none :=
      node?_of_route_vacant (route_of_walkPieces (walk_eq_ok_iff.1 hwalk).2)
    have hne : place ≠ [] := by
      rintro rfl
      cases hnone
    intro q
    rw [node?_put hne]
    split
    · next hq => exact .inr ⟨hq ▸ hnone, rfl⟩
    · exact .inl rfl

theorem gainsDirectories_ensureDir (disk : Disk) (path : Path) :
    disk.GainsDirectories (disk.ensureDir path).2 := by
  have hmade := gainsDirectories_makeDir disk path
  rw [ensureDir]
  split
  · next heq => simpa [heq] using hmade
  · next heq => simpa [heq] using hmade

theorem gainsDirectories_makeDirsOf (disk : Disk) (paths : List Path) :
    disk.GainsDirectories (disk.makeDirsOf paths).2 := by
  induction paths generalizing disk with
  | nil => exact .refl _
  | cons path above ih =>
    rw [makeDirsOf]
    split
    · exact .refl _
    · split
      · have habove := ih disk
        split
        · next heq => simpa [heq] using habove
        · next made heq =>
          rw [heq] at habove
          exact habove.trans (gainsDirectories_ensureDir made path)
      · exact gainsDirectories_ensureDir disk path

/-- Making directories takes nothing away. -/
theorem gainsDirectories_makeDirs (disk : Disk) (path : Path) :
    disk.GainsDirectories (disk.makeDirs path).2 :=
  gainsDirectories_makeDirsOf disk _

/-- Where there is a directory there is nothing to make. -/
theorem makeDirs_of_isDirectory (h : disk.isDirectory path = true) :
    disk.makeDirs path = (.ok (), disk) := by
  obtain ⟨place, hwalk⟩ : ∃ place, disk.walk .target path = .ok (.found place) := by
    rw [isDirectory] at h
    split at h
    · next hnode => exact (target?_eq_ok_iff.1 hnode).imp fun _ h => h.1
    · cases h
  obtain ⟨hfine, hpieces⟩ := walk_eq_ok_iff.1 hwalk
  obtain ⟨taken, htaken⟩ := walkPieces_newDirectory_of_target (route_of_walkPieces hpieces)
  have hmake : disk.makeDir path = (.error .alreadyExists, disk) := by
    rw [makeDir, walk_eq_ok_iff.2 ⟨hfine, htaken⟩]
  have hensure : disk.ensureDir path = (.ok (), disk) := by
    rw [ensureDir, hmake]
    simp [h]
  rw [makeDirs, makeDirsOf, if_neg (by simpa using hfine.2.1), hmake]
  exact hensure

/-- A file that can be read under a name in a directory has that directory above it. -/
theorem isDirectory_of_walk_join {dir name : Path} (hdir : dir.bytes ≠ [])
    (hname : Path.slash ∉ name.bytes) (h : disk.walk .target (dir.join name) = .ok spot) :
    disk.isDirectory dir = true := by
  obtain ⟨pieces, idle, hidle, hsplit, hjoin⟩ :=
    Path.exists_split_join hdir (Path.isAbsolute_of_slash_notMem hname)
  obtain ⟨⟨hzero, -, hlong⟩, hpieces⟩ := walk_eq_ok_iff.1 h
  obtain ⟨hlength, hsubset⟩ := Path.bytes_subset_join dir hname
  rw [hjoin, Path.split_of_slash_notMem hname] at hpieces
  obtain ⟨place, hplace, hnode⟩ :=
    walkPieces_init_of_append hidle (route_of_walkPieces hpieces)
  have hfine : 0 ∉ dir.bytes ∧ dir.bytes ≠ [] ∧ dir.bytes.length ≤ pathLimit :=
    ⟨fun h => hzero (hsubset h), hdir, Nat.le_trans hlength hlong⟩
  have hwalk : disk.walk .target dir = .ok (.found place) :=
    walk_eq_ok_iff.2 ⟨hfine, hsplit ▸ hplace⟩
  rw [isDirectory, target?_eq_ok_iff.2 ⟨place, hwalk, hnode⟩]

/-- Above a file that can be read there is nothing to make. -/
theorem makeDirs_of_read_join {dir name : Path} (hname : Path.slash ∉ name.bytes)
    (h : disk.read (dir.join name) = .ok bytes) : disk.makeDirs dir = (.ok (), disk) := by
  by_cases hdir : dir.bytes = []
  · rw [makeDirs, makeDirsOf, if_pos (by simpa using hdir)]
  · obtain ⟨place, hwalk⟩ := exists_walk_of_read h
    exact makeDirs_of_isDirectory (isDirectory_of_walk_join hdir hname hwalk)

/-! ### Writing in place -/

/-- The place that a file to write or to read leads to holds no link. -/
theorem not_link_of_walk (hfollows : purpose.followsLast = true)
    (h : disk.walk purpose path = .ok spot) (target : List UInt8) :
    disk.node? spot.place ≠ some (.link target) := by
  refine (route_of_walkPieces (walk_eq_ok_iff.1 h).2).not_link hfollows (fun front hfront => ?_) _
  rw [List.prefix_nil.1 hfront]
  rfl

/-- A file in the place that a file to write leads to is read there. -/
theorem read_put_of_walk_newFile (hwalk : disk.walk .newFile path = .ok spot)
    (hfree : disk.node? spot.place ≠ some .directory) :
    (disk.put spot.place (.file bytes)).read path = .ok bytes := by
  obtain ⟨hfine, hpieces⟩ := walk_eq_ok_iff.1 hwalk
  rcases (route_of_walkPieces hpieces).endsAtFile nofun hfree with hfound | ⟨⟨target, hlink⟩, -⟩
  · have htarget := hfound _ .target (.put hfree bytes) (.inl rfl)
    exact read_of_walk (walk_eq_ok_iff.2 ⟨hfine, htarget⟩) (node?_put_self hfree _)
  · exact absurd hlink (not_link_of_walk rfl hwalk target)

/-- Whether a file can be written does not depend on what is written. -/
theorem exists_write_of_write (h : disk.write path bytes = (.ok (), disk')) (other : List UInt8) :
    ∃ disk'', disk.write path other = (.ok (), disk'') := by
  rw [write] at h ⊢
  split at h
  · cases h
  · exact ⟨_, rfl⟩
  · split at h
    · cases h
    · exact ⟨_, rfl⟩
    · exact ⟨_, rfl⟩

/-- What is written into a file is read from it, unless the file is a device. -/
theorem read_of_write (h : disk.write path bytes = (.ok (), disk'))
    (hdevice : disk'.target? path ≠ .ok .device) : disk'.read path = .ok bytes := by
  rw [write] at h
  split at h
  · cases h
  · next place hwalk =>
    cases h
    have hnone : disk.node? place = none :=
      node?_of_route_vacant (route_of_walkPieces (walk_eq_ok_iff.1 hwalk).2)
    exact read_put_of_walk_newFile hwalk (by simp [Spot.place, hnone])
  · next place hwalk =>
    split at h
    · cases h
    · next hnode =>
      cases h
      obtain ⟨hfine, hpieces⟩ := walk_eq_ok_iff.1 hwalk
      have htarget := walkPieces_target_of_newFile (route_of_walkPieces hpieces)
      exact absurd (target?_eq_ok_iff.2 ⟨place, walk_eq_ok_iff.2 ⟨hfine, htarget⟩, hnode⟩) hdevice
    · next hfree _ =>
      cases h
      exact read_put_of_walk_newFile hwalk fun hdir => hfree hdir

/-! ### Putting a file in place -/

/-- A file can be put under a name, in place of what has it, and be read there. -/
def Receives (disk : Disk) (path : Path) : Prop :=
  ∃ placed, disk.replace path [] = (.ok (), placed) ∧ placed.read path = .ok []

theorem replace_eq_ok_iff :
    disk.replace path bytes = (.ok (), disk') ↔
      ∃ spot, disk.walk .entry path = .ok spot ∧ disk.node? spot.place ≠ some .directory ∧
        disk' = disk.put spot.place (.file bytes) := by
  rw [replace]
  split
  · next h => simp [h]
  · next place hwalk =>
    have hnone : disk.node? place = none :=
      node?_of_route_vacant (route_of_walkPieces (walk_eq_ok_iff.1 hwalk).2)
    simp [hwalk, Spot.place, hnone, eq_comm]
  · next place hwalk => split <;> simp_all [Spot.place, eq_comm]

/-- What is put in place is read, and can be replaced again. -/
theorem Receives.replace (h : disk.Receives path) (bytes : List UInt8) :
    ∃ disk', disk.replace path bytes = (.ok (), disk') ∧ disk'.read path = .ok bytes ∧
      disk'.Receives path := by
  obtain ⟨placed, hplaced, hread⟩ := h
  obtain ⟨spot, hwalk, hfree, rfl⟩ := replace_eq_ok_iff.1 hplaced
  obtain ⟨hfine, hpieces⟩ := walk_eq_ok_iff.1 hwalk
  -- The trial was read, so the walk does not go through a link that it has replaced.
  have hends (bytes : List UInt8) (later : Purpose) (hlater : Purpose.entry.Repeats later) :
      (disk.put spot.place (.file bytes)).walk later path = .ok (.found spot.place) := by
    rcases (route_of_walkPieces hpieces).endsAtFile nofun hfree with hfound | ⟨-, hblocked⟩
    · exact walk_eq_ok_iff.2 ⟨hfine, hfound _ later (.put hfree bytes) hlater⟩
    · obtain ⟨place, htrial⟩ := exists_walk_of_read hread
      have herror := hblocked _ .target (.put hfree []) (.inl rfl)
      rw [(walk_eq_ok_iff.1 htrial).2] at herror
      cases herror
  have hthere (bytes : List UInt8) :
      (disk.put spot.place (.file bytes)).node? spot.place = some (.file bytes) :=
    node?_put_self hfree _
  have hreads (bytes : List UInt8) :
      (disk.put spot.place (.file bytes)).read path = .ok bytes :=
    read_of_walk (hends bytes .target (.inl rfl)) (hthere bytes)
  refine ⟨_, replace_eq_ok_iff.2 ⟨spot, hwalk, hfree, rfl⟩, hreads bytes, _,
    replace_eq_ok_iff.2 ⟨_, hends bytes .entry (.inr ⟨rfl, rfl⟩), ?_, rfl⟩, ?_⟩
  · exact ne_of_eq_of_ne (hthere bytes) nofun
  · exact (congrArg (Disk.read · path) (put_put ..)).trans (hreads [])

end Disk

end IndexControl
