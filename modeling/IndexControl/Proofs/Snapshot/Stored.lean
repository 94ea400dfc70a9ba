import IndexControl.Proofs.Disk.Files
import IndexControl.Proofs.Snapshot.Reading
import IndexControl.Snapshot.Stored

/-!
# The stored snapshot is the one that was saved

Where a state directory can hold a file, saving a snapshot and loading it again gives the snapshot,
and the live roots it was taken of are then found unchanged. A file with less than a snapshot, or
with one of another version, counts as none. A snapshot with a path that is not text is not saved,
and the file of the state directory stays.

## Main definitions

* `Snapshot.HasRoom`: a state directory can hold the file.

## Main results

* `Snapshot.HasRoom.save`: what is saved is in the file, and can be saved again.
* `Snapshot.load_of_read`, `Snapshot.load_of_prefix`, `Snapshot.load_of_other_version`: what is
  loaded from a file.
* `Snapshot.save_of_encode?_none`: a snapshot that cannot be written.
* `Snapshot.save_load_check`: all of this for the snapshot of a set of roots.
-/

namespace IndexControl.Snapshot

variable {disk : Disk} {dir : Path} {s : Snapshot} {bytes : List UInt8}

/-- The file of a state directory can be put in place there and read again. The directory may have
to be made. -/
def HasRoom (disk : Disk) (dir : Path) : Prop :=
  ∃ made, disk.makeDirs dir = (.ok (), made) ∧ made.Receives (fileIn dir)

/-- The name of the file is a single one. -/
theorem slash_notMem_fileName : Path.slash ∉ (Path.ofString fileName).bytes := by decide

/-- Where the file can be read, there is no directory to make. -/
theorem makeDirs_of_read (h : disk.read (fileIn dir) = .ok bytes) :
    disk.makeDirs dir = (.ok (), disk) :=
  Disk.makeDirs_of_read_join slash_notMem_fileName h

/-- What is saved is in the file, and another snapshot can be saved in its place. -/
theorem HasRoom.save (h : HasRoom disk dir) (hs : s.encode? = some bytes) :
    ∃ stored, s.save disk dir = (.ok (), stored) ∧ stored.read (fileIn dir) = .ok bytes ∧
      HasRoom stored dir := by
  obtain ⟨made, hmake, hreceives⟩ := h
  obtain ⟨stored, hreplace, hread, hagain⟩ := hreceives.replace bytes
  refine ⟨stored, ?_, hread, stored, makeDirs_of_read hread, hagain⟩
  simp only [Snapshot.save, hmake, hs, hreplace]

/-! ### Loading -/

theorem load_eq_of_read (h : disk.read (fileIn dir) = .ok bytes) :
    load disk dir = .ok ((decode? bytes).filter fun s => s.version = currentVersion) := by
  simp only [load, h]

/-- A stored form of the current version is loaded. -/
theorem load_of_read (h : disk.read (fileIn dir) = .ok bytes) (hs : s.encode? = some bytes)
    (hversion : s.version = currentVersion) (hsize : bytes.length < 2 ^ 64) :
    load disk dir = .ok (some s) := by
  have hword : s.version < 2 ^ 32 := by
    rw [hversion]
    decide
  rw [load_eq_of_read h, decode?_encode hs hword hsize, Option.filter_some, if_pos (by simpa)]

/-- Less than a stored form counts as none. -/
theorem load_of_prefix {front : List UInt8} (h : disk.read (fileIn dir) = .ok front)
    (hs : s.encode? = some bytes) (hversion : s.version = currentVersion)
    (hsize : bytes.length < 2 ^ 64) (hfront : front <+: bytes) (hne : front ≠ bytes) :
    load disk dir = .ok none := by
  have hword : s.version < 2 ^ 32 := by
    rw [hversion]
    decide
  rw [load_eq_of_read h, decode?_prefix hs hword hsize hfront hne, Option.filter_none]

/-- A stored form of another version counts as none. -/
theorem load_of_other_version (h : disk.read (fileIn dir) = .ok bytes) (hs : s.encode? = some bytes)
    (hversion : s.version ≠ currentVersion) : load disk dir = .ok none := by
  rw [load_eq_of_read h]
  cases ht : decode? bytes with
  | none => rfl
  | some t =>
    have hother : t.version ≠ currentVersion := version_of_decode? hs ht ▸ hversion
    rw [Option.filter_some, if_neg (by simpa)]

/-- A snapshot that cannot be written leaves the file as it was. All that comes to the disk are the
directories above the file, where they were missing. -/
theorem save_of_encode?_none (h : HasRoom disk dir) (hs : s.encode? = none) :
    ∃ made, s.save disk dir = (.error .snapshotNotText, made) ∧ disk.GainsDirectories made ∧
      ∀ bytes, disk.read (fileIn dir) = .ok bytes → made = disk := by
  obtain ⟨made, hmake, -⟩ := h
  refine ⟨made, by simp only [Snapshot.save, hmake, hs], ?_, fun bytes hread => ?_⟩
  · simpa [hmake] using disk.gainsDirectories_makeDirs dir
  · rw [makeDirs_of_read hread, Prod.mk.injEq] at hmake
    exact hmake.2.symm

/-! ### The snapshot of a set of roots -/

/-- A snapshot of roots can be written if the paths of the roots it keeps are texts, and not
otherwise. -/
theorem encode?_ofRoots_eq_none_iff {roots : RootSet} {onDemand : Location → Bool} :
    (ofRoots roots onDemand).encode? = none ↔
      ∃ root ∈ roots.roots.entries, onDemand root.1 = false ∧
        root.1.toPath.toString? = none := by
  simp [encode?_eq_none_iff, ofRoots, and_assoc]

/-- **A snapshot is stored as a whole or not at all.** Take the snapshot of any set of roots, with
any flags and patterns and leaving out any roots, where the state directory can hold the file.

If the paths of the roots that are kept are texts, the snapshot is saved, the file holds its bytes,
it is loaded as it was, and the roots are found unchanged: no freshness check is asked for and the
file is left alone. Where the file holds a proper front part of these bytes, or a snapshot of
another version, nothing is loaded. If the path of a root that is kept is not text, saving fails
for this reason, and what was stored before stays. -/
theorem save_load_check (disk : Disk) (dir : Path) (roots : RootSet) (onDemand : Location → Bool)
    (hroom : HasRoom disk dir)
    (hsize : ∀ bytes, (ofRoots roots onDemand).encode? = some bytes → bytes.length < 2 ^ 64) :
    ((∀ root ∈ roots.roots.entries, onDemand root.1 = false →
        root.1.toPath.toString? ≠ none) →
      ∃ stored bytes, (ofRoots roots onDemand).save disk dir = (.ok (), stored) ∧
        stored.read (fileIn dir) = .ok bytes ∧
        load stored dir = .ok (some (ofRoots roots onDemand)) ∧
        check stored roots dir onDemand = (.ok false, roots, stored) ∧
        ∀ front, front <+: bytes → front ≠ bytes → ∀ cut, cut.read (fileIn dir) = .ok front →
          load cut dir = .ok none) ∧
    (∀ (other : Snapshot) (bytes : List UInt8), other.encode? = some bytes →
      other.version ≠ currentVersion → ∀ changed, changed.read (fileIn dir) = .ok bytes →
        load changed dir = .ok none) ∧
    ((∃ root ∈ roots.roots.entries, onDemand root.1 = false ∧
        root.1.toPath.toString? = none) →
      ∃ made, (ofRoots roots onDemand).save disk dir = (.error .snapshotNotText, made) ∧
        disk.GainsDirectories made ∧
        ∀ bytes, disk.read (fileIn dir) = .ok bytes → made = disk) := by
  refine ⟨fun htexts => ?_, fun other bytes hother hversion changed hread => ?_, fun htext => ?_⟩
  · have hwritten : (ofRoots roots onDemand).encode? ≠ none := by
      rw [Ne, encode?_ofRoots_eq_none_iff]
      rintro ⟨root, hroot, hkept, htext⟩
      exact htexts root hroot hkept htext
    obtain ⟨bytes, hbytes⟩ := Option.ne_none_iff_exists'.1 hwritten
    obtain ⟨stored, hsave, hread, -⟩ := hroom.save hbytes
    have hload := load_of_read hread hbytes rfl (hsize bytes hbytes)
    refine ⟨stored, bytes, hsave, hread, hload, ?_, fun front hfront hne cut hcut => ?_⟩
    · rw [check, hload]
      exact if_pos rfl
    · exact load_of_prefix hcut hbytes rfl (hsize bytes hbytes) hfront hne
  · exact load_of_other_version hread hother hversion
  · exact save_of_encode?_none hroom (encode?_ofRoots_eq_none_iff.2 htext)

/-- A root with all flags set, and one with a name that is not text. -/
def mixedRoots : RootSet where
  roots := .ofList [([.root, .name (Text.utf8 "é")], ⟨⟨4294967295⟩, none⟩),
    ([.root, .name [0xFF]], ⟨⟨7⟩, none⟩)]
  filters := .ofPatterns ⟨["*.o", ""], [], [".git"], true⟩
  events := []

/-- Of the two roots the second one is there on demand, and the first one is stored. -/
theorem save_load_check_mixed :
    HasRoom ⟨.empty⟩ (.ofString "/var/state") ∧
      ∃ stored, (ofRoots mixedRoots (· = [.root, .name [0xFF]])).save ⟨.empty⟩
          (.ofString "/var/state") = (.ok (), stored) ∧
        load stored (.ofString "/var/state") =
          .ok (some (ofRoots mixedRoots (· = [.root, .name [0xFF]]))) := by
  have hroom : HasRoom ⟨.empty⟩ (.ofString "/var/state") := ⟨_, rfl, _, rfl, rfl⟩
  have hlength : (ofRoots mixedRoots (· = [.root, .name [0xFF]])).encode?.all
      (·.length < 2 ^ 64) = true := by decide +kernel
  have htexts : ∀ root ∈ mixedRoots.roots.entries,
      decide (root.1 = [.root, .name [0xFF]]) = false → root.1.toPath.toString? ≠ none := by
    decide +kernel
  have hsize : ∀ bytes, (ofRoots mixedRoots (· = [.root, .name [0xFF]])).encode? = some bytes →
      bytes.length < 2 ^ 64 := fun bytes hbytes => by
    rw [hbytes] at hlength
    exact of_decide_eq_true hlength
  obtain ⟨stored, bytes, hsave, -, hload, -⟩ :=
    (save_load_check ⟨.empty⟩ _ mixedRoots _ hroom hsize).1 htexts
  exact ⟨hroom, stored, hsave, hload⟩

end IndexControl.Snapshot
