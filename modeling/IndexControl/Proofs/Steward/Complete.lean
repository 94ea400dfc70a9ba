import IndexControl.Proofs.Steward.Settings

/-!
# Roots that are complete

Between two settings the roots are those that the settings ask for, but for some single directories
that are lost. Adding the configured directories once more brings the lost ones back, because the
recursive roots are by then those of these directories. Where the directories stay the same, all
that the settings can change about the roots is whether they are monitored.

## Main definitions

* `Steward.Complete`: the roots are all those that the configured directories ask for.

## Main results

* `Steward.Follows.syncRoots`: the roots are complete after the directories have been added again.
* `Steward.Follows.flagsAt?_applySettings`: a change that leaves the directories alone.
* `Steward.Follows.eq_wanted?_iff`: when the roots are those that other settings ask for.
-/

namespace IndexControl

/-- Nothing is stranded by the directories themselves. -/
theorem Directories.Canonical.strands_self {d : Directories} (h : d.Canonical) (q : Location) :
    d.strands d q = false := by
  rw [← Bool.not_eq_true, Directories.strands_iff]
  rintro ⟨above, hrecursive, -, hsub⟩
  exact h.apart above (hsub.subset (by simp)) hrecursive

namespace Steward

open RootSet

variable {w : Steward} {s : RootSet} {a b : Settings} {lost : Location → Bool}
  {t t' : Steward × RootSet} {q : Location}

/-- The roots are all those that the configured directories ask for. -/
def Complete (w : Steward) (s : RootSet) : Prop := ∀ q, s.flagsAt? q = w.wanted? q

theorem Follows.congr (h : w.Follows a lost t) (hsteward : t'.1 = t.1)
    (hflags : ∀ q, t'.2.flagsAt? q = t.2.flagsAt? q) : w.Follows a lost t' where
  steward := hsteward.trans h.steward
  wellFormed := h.wellFormed.of_flagsAt?_imp fun q _ hf => hflags q ▸ hf
  flagsAt? q := (hflags q).trans (h.flagsAt? q)
  lost_single := h.lost_single

theorem Follows.complete (h : w.Follows a lost t) (hlost : ∀ q, lost q = false) :
    t.1.Complete t.2 := by
  intro q
  rw [h.flagsAt?, hlost, h.steward]
  rfl

/-- A root is one that the settings ask for. -/
theorem Follows.wanted?_eq_some (h : w.Follows a lost t) {f : Flags}
    (hf : t.2.flagsAt? q = some f) : (w.under a).wanted? q = some f := by
  rw [h.flagsAt?] at hf
  split_ifs at hf
  exact hf

/-- The roots are complete after the configured directories have been added again. -/
theorem Follows.syncRoots (h : w.Follows a lost t) :
    w.Follows a (fun _ => false) (t.1, t.1.syncRoots t.2) where
  steward := h.steward
  wellFormed := (changes_syncRoots (fun _ hplace => hplace.isSpelled) t.2).wellFormed h.wellFormed
  flagsAt? q := by
    have hdropped : (w.under a).dropped (w.directoriesOf a) = [] :=
      List.eq_nil_iff_forall_not_mem.2 fun _ hq => (mem_dropped_iff.1 hq).2 (mem_dropped_iff.1 hq).1
    have hleft : (w.under a).LeftOver (w.directoriesOf a)
        (removeDropped t.2 ((w.under a).dropped (w.directoriesOf a))).1 :=
      h.leftOver h.wellFormed fun _ => rfl
    rw [hdropped] at hleft
    have hcanonical := w.canonical_directoriesOf a
    rw [h.steward]
    refine (hleft.flagsAt?_syncRoots hcanonical q).trans ?_
    exact if_congr (Bool.eq_iff_iff.1 (hcanonical.strands_self q)) rfl rfl
  lost_single _ hlost := Bool.noConfusion hlost

/-! ### Settings with the same directories -/

/-- Whether a root that is asked for is monitored hangs on the steward alone. -/
theorem contains_monitor_of_wanted? {f : Flags} (h : w.wanted? q = some f) :
    f.contains .monitor = w.enableMonitors := by
  rw [wanted?] at h
  split_ifs at h
  · rw [← Option.some.inj h, contains_monitor_flagsFor]
  · rw [← Option.some.inj h, contains_monitor_flagsFor]

/-- The same directories ask for roots at the same places. -/
theorem wanted?_eq_none_iff_of_directories (h : w.directoriesOf b = w.directoriesOf a)
    (q : Location) : (w.under b).wanted? q = none ↔ (w.under a).wanted? q = none := by
  have hsystem : (w.under b).isSystemLocation q = (w.under a).isSystemLocation q := rfl
  have hdirectories : (w.under b).directories = (w.under a).directories := h
  rw [wanted?, wanted?, hsystem, hdirectories]
  split_ifs <;> simp

theorem wanted?_congr (hdirectories : w.directoriesOf b = w.directoriesOf a)
    (hmonitors : a.enableMonitors = b.enableMonitors) (q : Location) :
    (w.under b).wanted? q = (w.under a).wanted? q := by
  simp only [under, hdirectories, ← hmonitors]
  rfl

/-- The roots are those that other settings with the same directories ask for if they are complete
and these settings monitor them as before, or if there are none. -/
theorem Follows.eq_wanted?_iff (h : w.Follows a lost t)
    (hdirectories : w.directoriesOf b = w.directoriesOf a) :
    (∀ q, t.2.flagsAt? q = (w.under b).wanted? q) ↔
      (a.enableMonitors = b.enableMonitors ∨ ∀ q, (w.under b).wanted? q = none) ∧
        t.1.Complete t.2 := by
  have hplaces := wanted?_eq_none_iff_of_directories hdirectories
  constructor
  · intro heq
    refine ⟨or_iff_not_imp_right.2 fun hsome => ?_, fun q => ?_⟩
    · obtain ⟨q, hq⟩ := not_forall.1 hsome
      obtain ⟨f, hf⟩ := Option.ne_none_iff_exists'.1 hq
      have hbefore := h.wanted?_eq_some ((heq q).trans hf)
      exact (contains_monitor_of_wanted? hbefore).symm.trans (contains_monitor_of_wanted? hf)
    · rw [h.steward]
      cases hq : (w.under b).wanted? q with
      | none => rw [heq, hq, (hplaces q).1 hq]
      | some f => rw [h.wanted?_eq_some ((heq q).trans hq), heq, hq]
  · rintro ⟨hmonitors | hnone, hcomplete⟩ q
    · rw [hcomplete, h.steward, wanted?_congr hdirectories hmonitors]
    · rw [hcomplete, h.steward, hnone, (hplaces q).1 (hnone q)]

/-- A change of the settings that leaves the directories alone leaves the roots alone as well, or
the roots are complete after it: the first if the settings monitor the roots as before. -/
theorem Follows.flagsAt?_applySettings (h : w.Follows a lost t) (hmounts : w.mounts = .empty)
    (hkept : SettingsChange.touchesDirectories ⟨a.changedKeys b⟩ = false) :
    if a.enableMonitors = b.enableMonitors then
      ∀ q, (t.1.applySettings t.2 b ⟨a.changedKeys b⟩).2.1.flagsAt? q = t.2.flagsAt? q
    else (w.under b).Complete (t.1.applySettings t.2 b ⟨a.changedKeys b⟩).2.1 := by
  have hresyncs : a.resyncs b = !decide (a.enableMonitors = b.enableMonitors) := by
    simp [Settings.resyncs, hkept, Settings.touches_changedKeys, SettingsKey.differs]
  have hnext := h.applySettings hmounts b
  split
  · next hmonitors =>
    intro q
    rw [hnext.flagsAt?, h.flagsAt?, hresyncs, wanted?_congr (w.directoriesOf_congr hkept) hmonitors]
    simp [hmonitors]
  · next hmonitors =>
    have hlost := hnext.complete fun q => by
      rw [hresyncs, w.directoriesOf_congr hkept]
      simpa [hmonitors] using (w.canonical_directoriesOf a).strands_self q
    exact hnext.steward ▸ hlost

/-- Without volumes only a change of the directories removes roots. -/
theorem removed_applySettings (hmounts : w.mounts = .empty) (s : RootSet) (settings : Settings)
    {change : SettingsChange} (hkept : change.touchesDirectories = false) :
    (w.applySettings s settings change).2.2 = [] := by
  have hnone (v : Steward) (s : RootSet) (hv : v.mounts = .empty) :
      (v.followRemovable s settings change).2.2 = [] := by
    simp only [followRemovable, changeRemovable]
    split
    · split
      · rfl
      · exact congrArg (fun places => (s.removeEach places).2) (removablePlaces_eq_nil hv)
    · rfl
  simp only [applySettings]
  rw [hnone _ _ ((mounts_followDirectories ..).trans hmounts), List.append_nil]
  simp only [followDirectories, hkept, Bool.false_eq_true, ↓reduceIte]

end Steward

end IndexControl
