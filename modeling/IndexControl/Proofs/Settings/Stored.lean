import IndexControl.Proofs.Disk.Files
import IndexControl.Proofs.Settings.Written
import IndexControl.Settings.File

/-!
# The stored settings are the ones that were saved

Settings that have been saved are loaded from their file as they were, whatever characters their
strings hold and however large their numbers are. Settings that cannot be written are not saved at
all.

## Main results

* `Settings.save_load`: both.
-/

namespace IndexControl.Settings

variable {disk disk' : Disk} {s : Settings} {file : Path}

/-- A file with the text of settings is loaded as these settings. -/
theorem load_of_read {text : String} (hrender : s.render? = some text)
    (hread : disk.read file = .ok (Text.utf8 text)) : load disk file = .ok s := by
  rw [load, Disk.readText, hread]
  simp only [Text.ofUtf8?_utf8, ofText?_render hrender]

/-- A file can be written: the directories above it are there or can be made, and the disk takes a
file of that name. -/
def IsWritable (disk : Disk) (file : Path) : Prop :=
  ∃ made placed, (file.parent?.map disk.makeDirs).getD (.ok (), disk) = (.ok (), made) ∧
    made.write file [] = (.ok (), placed)

/-- Where the file can be written it holds the text of the settings after they have been saved,
unless it is a device. -/
theorem IsWritable.save {text : String} (h : IsWritable disk file)
    (hrender : s.render? = some text) :
    ∃ after, s.save disk file = (.ok (), after) ∧
      (after.target? file ≠ .ok .device → after.read file = .ok (Text.utf8 text)) := by
  obtain ⟨made, placed, hmake, htrial⟩ := h
  obtain ⟨after, hwrite⟩ := Disk.exists_write_of_write htrial (Text.utf8 text)
  refine ⟨after, ?_, Disk.read_of_write hwrite⟩
  simp only [Settings.save, hrender, hmake, hwrite, ioResult]

/-- **Settings are saved as a whole or not at all.** Where there is no state directory or its path
is text, saving succeeds in any file that can be written, and the settings are loaded from there as
they were, unless the file is a device, which keeps nothing. Where the state directory's path is not
text, saving fails for this reason and nothing on the disk has changed. -/
theorem save_load (disk : Disk) (s : Settings) (file : Path) :
    ((∀ dir, s.stateDir = some dir → dir.toString? ≠ none) → IsWritable disk file →
      ∃ after, s.save disk file = (.ok (), after) ∧
        (after.target? file ≠ .ok .device → load after file = .ok s)) ∧
    ((∃ dir, s.stateDir = some dir ∧ dir.toString? = none) →
      s.save disk file = (.error .settingsNotText, disk)) := by
  refine ⟨fun htext hfile => ?_, fun htext => ?_⟩
  · have hwritten : s.render? ≠ none := by
      rw [Ne, render?_eq_none_iff]
      rintro ⟨dir, hdir, hnone⟩
      exact htext dir hdir hnone
    obtain ⟨text, hrender⟩ := Option.ne_none_iff_exists'.1 hwritten
    obtain ⟨after, hsave, hread⟩ := hfile.save hrender
    exact ⟨after, hsave, fun hdevice => load_of_read hrender (hread hdevice)⟩
  · rw [save, render?_eq_none_iff.2 htext]

/-- Settings with characters that have to be escaped, an empty list, and the greatest number. -/
def unusualSettings : Settings :=
  { default with
    singleDirectories := ["\"\\\n\x01", "é😀"]
    ignoredFiles := []
    bufferLimit := 18446744073709551615
    stateDir := some (.ofString "/var/é") }

theorem save_load_unusual :
    ∃ after, unusualSettings.save ⟨.empty⟩ (.ofString "/etc/miner.json") = (.ok (), after) ∧
      load after (.ofString "/etc/miner.json") = .ok unusualSettings := by
  have htext (dir) (hdir : unusualSettings.stateDir = some dir) : dir.toString? ≠ none := by
    obtain rfl := Option.some.inj hdir
    decide
  have hfile : IsWritable ⟨.empty⟩ (.ofString "/etc/miner.json") := ⟨_, _, rfl, rfl⟩
  have hkept : ∃ bytes, (unusualSettings.save ⟨.empty⟩ (.ofString "/etc/miner.json")).2.target?
      (.ofString "/etc/miner.json") = .ok (.file bytes) := ⟨_, rfl⟩
  obtain ⟨after, hsave, hload⟩ := (save_load ⟨.empty⟩ unusualSettings _).1 htext hfile
  refine ⟨after, hsave, hload ?_⟩
  rw [hsave] at hkept
  obtain ⟨bytes, hbytes⟩ := hkept
  exact ne_of_eq_of_ne hbytes nofun

end IndexControl.Settings
