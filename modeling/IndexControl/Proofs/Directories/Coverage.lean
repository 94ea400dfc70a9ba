import IndexControl.Proofs.Directories.Reconciled

/-!
# What the configured directories cover

A recursive entry asks for a directory with all that lies below. Reconciling leaves the entry out
where another one stands for a directory above, and leaves out a recursive directory that is listed
as single too. The two do not go together: what was left out because of a directory above is not
looked at again when that directory is left out itself.

## Main definitions

* `Directories.Covers`: the paths that the configured directories speak for.
* `Directories.IsOvershadowed`: the outermost entry at or above a path is listed as single too.

## Main results

* `Directories.mem_recursive_iff`: which recursive entries are kept.
* `Directories.covers_reconcile_iff`: which of them stay covered.
-/

namespace IndexControl

namespace Directories

variable {env : Environment} {rawSingle rawRecursive : List String} {p q above : Path}

/-- A path is covered where it is a single directory, or where it is a recursive one or lies below
one. -/
def Covers (d : Directories) (p : Path) : Prop :=
  p ∈ d.single ∨ ∃ q ∈ d.recursive, p.startsWith q = true

instance (d : Directories) (p : Path) : Decidable (d.Covers p) :=
  inferInstanceAs (Decidable (_ ∨ _))

/-- The outermost recursive entry at or above a path stands for a directory that is listed as single
too. -/
def IsOvershadowed (env : Environment) (rawSingle rawRecursive : List String) (p : Path) : Prop :=
  ∃ q ∈ resolved env rawSingle,
    Path.IsOutermost (resolved env rawRecursive) q ∧ p.startsWith q = true

instance (env : Environment) (rawSingle rawRecursive : List String) (p : Path) :
    Decidable (IsOvershadowed env rawSingle rawRecursive p) :=
  inferInstanceAs (Decidable (∃ q ∈ _, _))

theorem mem_single_iff :
    p ∈ (reconcile env rawSingle rawRecursive).single ↔ p ∈ resolved env rawSingle := by
  have hsingle : (reconcile env rawSingle rawRecursive).single =
      (resolved env rawSingle).eraseDups := distinct_resolved env rawSingle
  rw [hsingle, List.mem_eraseDups]

/-- The outermost recursive entries are kept where they are not listed as single too. -/
theorem mem_recursive_iff :
    q ∈ (reconcile env rawSingle rawRecursive).recursive ↔
      Path.IsOutermost (resolved env rawRecursive) q ∧ q ∉ resolved env rawSingle := by
  rw [recursive_reconcile, unshadowed_eq_filter, List.mem_filter, List.mem_eraseDups,
    decide_eq_true_iff, Path.IsOutermost, and_assoc, and_comm (a := q ∉ _)]

/-- A recursive directory that was kept covers the path of an entry unless the outermost one above
it was left out. -/
theorem exists_recursive_iff (hp : p ∈ resolved env rawRecursive) :
    (∃ q ∈ (reconcile env rawSingle rawRecursive).recursive, p.startsWith q = true) ↔
      ¬IsOvershadowed env rawSingle rawRecursive p := by
  simp only [mem_recursive_iff]
  constructor
  · rintro ⟨q, ⟨hq, hkept⟩, hpq⟩ ⟨r, hsingle, hr, hpr⟩
    have heq : q = r := by
      rw [← toPath_location_of_mem_resolved hq.1, hq.location_eq hr hpq hpr,
        toPath_location_of_mem_resolved hr.1]
    exact hkept (heq ▸ hsingle)
  · intro hshadow
    obtain ⟨q, hq, hpq⟩ := Path.exists_isOutermost hp
    exact ⟨q, ⟨hq, fun hsingle => hshadow ⟨q, hsingle, hq, hpq⟩⟩, hpq⟩

/-- A path that is told to lie below another one is that of an entry, and does so. -/
theorem isBelow_of_covered_mem
    (h : .covered p above ∈ (reconcile env rawSingle rawRecursive).diagnostics) :
    p ∈ resolved env rawRecursive ∧ p.location.isBelow above.location = true := by
  have hcovered : ∃ c ∈ (Path.collapse (distinct [] (resolved env rawRecursive))).2,
      c.path = p ∧ c.ancestor = above := by
    rw [diagnostics_reconcile] at h
    simpa [coveredDiagnostics] using h
  obtain ⟨c, hc, rfl, rfl⟩ := hcovered
  obtain ⟨hp, hbelow⟩ := Path.isBelow_of_mem_covered hc
  exact ⟨(distinct_sublist [] _).subset hp, hbelow⟩

/-- **Reconciling loses only what lies below a directory that is listed both ways.** The path for
which a recursive entry stands is covered by the configured directories, as a single one or by a
recursive one at or above it, just where it is listed as single or the outermost recursive entry at
or above it is not. A path that is told to lie below another one does lie below it, and a recursive
directory that was kept covers the path just where the outermost entry above it is not listed as
single. -/
theorem covers_reconcile_iff (env : Environment) (rawSingle rawRecursive : List String) :
    let d := reconcile env rawSingle rawRecursive
    (∀ entry ∈ rawRecursive, ∀ p, Entry.resolveText? env entry = some p →
      (d.Covers p ↔
        p ∈ resolved env rawSingle ∨ ¬IsOvershadowed env rawSingle rawRecursive p)) ∧
    ∀ p above, .covered p above ∈ d.diagnostics →
      p.location.isBelow above.location = true ∧
        ((∃ q ∈ d.recursive, p.startsWith q = true) ↔
          ¬IsOvershadowed env rawSingle rawRecursive p) := by
  intro d
  refine ⟨fun entry hentry p hp => ?_, fun p above hcovered => ?_⟩
  · have hmem : p ∈ resolved env rawRecursive := List.mem_filterMap.2 ⟨entry, hentry, hp⟩
    rw [Covers, mem_single_iff, exists_recursive_iff hmem]
  · obtain ⟨hmem, hbelow⟩ := isBelow_of_covered_mem hcovered
    exact ⟨hbelow, exists_recursive_iff hmem⟩

/-- `/c/d` stays covered by `/c`, and `/a/b` is lost with `/a`. -/
theorem covers_reconcile_iff_nested :
    let nowhere : Environment := ⟨fun _ => .none, .none, fun _ => .none, fun _ => false⟩
    let lost := Path.ofString "/a/b"
    let kept := Path.ofString "/c/d"
    let d := reconcile nowhere ["/a"] ["/a", "/a/b", "/c", "/c/d"]
    ¬d.Covers lost ∧ d.Covers kept ∧ ∃ q ∈ d.recursive, kept.startsWith q = true := by
  intro nowhere lost kept d
  obtain ⟨hentries, htold⟩ :=
    covers_reconcile_iff nowhere ["/a"] ["/a", "/a/b", "/c", "/c/d"]
  have hlost := hentries "/a/b" (by decide) lost (by decide)
  have hkept := hentries "/c/d" (by decide) kept (by decide)
  have hcovered := htold kept (Path.ofString "/c") (by decide)
  exact ⟨hlost.not.2 (by decide), hkept.2 (by decide), hcovered.2.2 (by decide)⟩

/-- The recursive entry `/a/b` is left out because of `/a`, which is left out as a single directory,
so that nothing covers `/a/b`. -/
theorem not_covers_below_shadowed :
    let nowhere : Environment := ⟨fun _ => .none, .none, fun _ => .none, fun _ => false⟩
    let p := Path.ofString "/a/b"
    let d := reconcile nowhere ["/a"] ["/a", "/a/b"]
    Entry.resolveText? nowhere "/a/b" = some p ∧ ¬d.Covers p ∧
      .covered p (Path.ofString "/a") ∈ d.diagnostics ∧
      ¬∃ q ∈ d.recursive, p.startsWith q = true := by
  decide

end Directories

end IndexControl
