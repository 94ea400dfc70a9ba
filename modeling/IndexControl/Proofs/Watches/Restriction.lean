import IndexControl.Proofs.Directories.Canonical
import IndexControl.Proofs.Request.Uri
import IndexControl.Proofs.Watches.Holders

/-!
# What the restriction of requests keeps out

Where requests are restricted, the target of one that is let through continues the steps of a
configured directory: any number of them for a recursive directory, at most one for a single one.
The double dots among these steps count as steps. Resolved, they may lead out of the directory.

## Main definitions

* `Directories.Admits`: steps that may continue a directory.

## Main results

* `Eligibility.allows_ofDirectories_iff`: the targets that are let through.
* `Eligibility.allows_resolve_iff_confined`: which of them stay inside when resolved.
-/

namespace IndexControl

/-! ### Places as requests name them -/

theorem IndexRequest.location?_of_probe {request : IndexRequest} {attributes : Attributes}
    {cancelled : Bool} {p : ProbedRequest} (h : request.probe attributes cancelled = .ok p) :
    Uri.location? request.uri = some p.place := by
  rw [IndexRequest.probe] at h
  split at h
  · contradiction
  · next place hplace =>
    split_ifs at h
    split at h
    · contradiction
    · rw [hplace, ← congrArg ProbedRequest.place (Except.ok.inj h)]

/-- Nothing from the root lies directly in the empty path. -/
theorem Location.IsRooted.not_isChildOf_nil {l : Location} (h : l.IsRooted) :
    ¬l.isChildOf [] = true := by
  rw [isChildOf, decide_eq_true_iff]
  intro hparent
  have hmem : [] ∈ l.ancestors := List.mem_of_mem_head? hparent
  exact (mem_ancestors_iff.1 hmem).2 rfl h.1

/-! ### Targets that are let through -/

/-- Steps that may continue a configured directory in the target of a request: any steps for a
recursive directory, and at most one for a single one that is not the empty path. -/
def Directories.Admits (d : Directories) (dir steps : Location) : Prop :=
  dir ∈ d.recursivePlaces ∨ dir ∈ d.singlePlaces ∧ dir ≠ [] ∧ steps.length ≤ 1

theorem Directories.Admits.mem_places {d : Directories} {dir steps : Location}
    (h : d.Admits dir steps) : dir ∈ d.places :=
  mem_places_iff.2 (h.symm.imp_left (·.1))

namespace Eligibility

variable {d : Directories} {place : Location}

/-- A single directory lets through itself and what is one step further. -/
theorem inScope_single_iff {dir : Location} (hplace : place.IsRooted) :
    place.inScope dir false = true ↔
      dir ≠ [] ∧ ∃ steps : Location, place = dir ++ steps ∧ steps.length ≤ 1 := by
  rw [Location.inScope, if_neg Bool.false_ne_true, Bool.or_eq_true, decide_eq_true_iff]
  constructor
  · rintro (rfl | hchild)
    · exact ⟨hplace.ne_nil, [], (List.append_nil _).symm, Nat.zero_le 1⟩
    · have hdir : dir ≠ [] := by
        rintro rfl
        exact hplace.not_isChildOf_nil hchild
      obtain ⟨c, hc⟩ := (Location.isChildOf_iff hdir).1 hchild
      exact ⟨hdir, [c], hc, Nat.le_refl 1⟩
  · rintro ⟨hdir, steps, rfl, hsteps⟩
    cases steps with
    | nil => exact .inl (List.append_nil _)
    | cons c rest =>
      obtain rfl : rest = [] := by simpa using hsteps
      exact .inr ((Location.isChildOf_iff hdir).2 ⟨c, rfl⟩)

/-- A target from the root is let through just where it continues a configured directory. -/
theorem allows_ofDirectories_iff (hplace : place.IsRooted) :
    (ofDirectories d).allows place = true ↔
      ∃ dir steps, place = dir ++ steps ∧ d.Admits dir steps := by
  rw [allows, Bool.or_eq_true, List.any_eq_true, List.any_eq_true]
  constructor
  · rintro (⟨dir, hdir, hscope⟩ | ⟨dir, hdir, hscope⟩)
    · obtain ⟨steps, rfl⟩ := Location.startsWith_iff.1 hscope
      exact ⟨dir, steps, rfl, .inl hdir⟩
    · obtain ⟨hne, steps, heq, hsteps⟩ := (inScope_single_iff hplace).1 hscope
      exact ⟨dir, steps, heq, .inr ⟨hdir, hne, hsteps⟩⟩
  · rintro ⟨dir, steps, heq, hdir | ⟨hdir, hne, hsteps⟩⟩
    · exact .inl ⟨dir, hdir, Location.startsWith_iff.2 ⟨steps, heq.symm⟩⟩
    · exact .inr ⟨dir, hdir, (inScope_single_iff hplace).2 ⟨hne, steps, heq, hsteps⟩⟩

/-- A directory that admits steps has steps itself, or it is recursive and lets everything
through. -/
theorem ne_nil_or_allows {dir steps : Location} (h : d.Admits dir steps) :
    dir ≠ [] ∨ [] ∈ d.recursivePlaces := by
  rcases h with hrecursive | ⟨-, hne, -⟩
  · refine or_iff_not_imp_left.2 fun hnil => ?_
    rwa [← not_not.1 hnil]
  · exact .inl hne

/-- Resolved, a target is let through just where the walk along the steps after its directory leads
to a place that continues a configured directory again. -/
theorem allows_resolve_append_iff {dir steps : Location} (hplain : .parent ∉ dir)
    (hplace : (dir ++ steps).IsRooted) (hadmits : d.Admits dir steps) :
    (ofDirectories d).allows (dir ++ steps).resolve = true ↔
      ∃ again more, dir.climb (Walk.along steps).up ++ (Walk.along steps).down = again ++ more ∧
        d.Admits again more := by
  rcases ne_nil_or_allows hadmits with hne | hall
  · obtain ⟨hrooted, hsteps⟩ := hplace.of_append hne
    rw [hrooted.resolve_append hplain hsteps, allows_ofDirectories_iff]
    exact (Location.isRooted_climb hrooted _).append fun c hc => hsteps c (Walk.mem_down hc).1
  · refine iff_of_true ?_ ⟨[], _, rfl, .inl hall⟩
    rw [allows, Bool.or_eq_true, List.any_eq_true]
    exact .inl ⟨[], hall, Location.startsWith_iff.2 List.nil_prefix⟩

/-- Steps that never lead up from a directory lead to a place that continues it. -/
theorem continues_of_up_eq_zero {dir steps : Location} (hadmits : d.Admits dir steps)
    (hup : (Walk.along steps).up = 0) :
    ∃ again more, dir.climb (Walk.along steps).up ++ (Walk.along steps).down = again ++ more ∧
      d.Admits again more := by
  rcases ne_nil_or_allows hadmits with hne | hall
  · rw [hup, Location.climb_zero hne]
    refine ⟨dir, _, rfl, hadmits.imp_right fun ⟨hsingle, hne, hlength⟩ => ?_⟩
    exact ⟨hsingle, hne, (Walk.length_down_le steps).trans hlength⟩
  · exact ⟨[], _, rfl, .inl hall⟩

/-- **A restricted request leaves its directory only by double dots that lead up from it.** Let no
configured directory have a double dot in its place.

* While requests are restricted to these directories, the target of a request that is let through
  continues a directory that admits it. Resolved, this target is one that may be indexed just where
  the steps after the directory never lead up from it, or where the place to which they lead
  continues a configured directory again.
* If one of the directories is recursive, every place can be named by a target that may be
  indexed. -/
theorem allows_resolve_iff_confined (hplain : ∀ dir ∈ d.places, .parent ∉ dir) :
    (∀ (w : Watches) (s : RootSet) (request : IndexRequest) (attributes : Attributes)
      (cancelled : Bool) (p : ProbedRequest) (a : Watches.Applied),
      w.eligibility = some (ofDirectories d) → request.probe attributes cancelled = .ok p →
      w.apply s p = .ok a →
      ((ofDirectories d).allows p.place.resolve = true ↔
        ∃ dir steps, p.place = dir ++ steps ∧ d.Admits dir steps ∧
          ((Walk.along steps).up = 0 ∨ ∃ again more, d.Admits again more ∧
            dir.climb (Walk.along steps).up ++ (Walk.along steps).down = again ++ more))) ∧
    ∀ dir ∈ d.recursivePlaces, dir.IsCanonical → dir.isAbsolute = true →
      ∀ target : Location, target.IsCanonical → target.isAbsolute = true → .parent ∉ target →
        ∃ place : Location, place.IsCanonical ∧ place.isAbsolute = true ∧
          (ofDirectories d).allows place = true ∧ place.resolve = target := by
  constructor
  · intro w s request attributes cancelled p a hw hprobe happly
    have hplace : p.place.IsRooted :=
      Uri.isRooted_of_location? (IndexRequest.location?_of_probe hprobe)
    have hadmitted : (ofDirectories d).allows p.place = true := by
      have hallows := Watches.allows_of_apply happly
      rwa [Watches.allows, hw] at hallows
    constructor
    · intro hresolved
      obtain ⟨dir, steps, heq, hadmits⟩ := (allows_ofDirectories_iff hplace).1 hadmitted
      rw [heq] at hplace hresolved
      obtain ⟨again, more, hleads, hagain⟩ :=
        (allows_resolve_append_iff (hplain dir hadmits.mem_places) hplace hadmits).1 hresolved
      exact ⟨dir, steps, heq, hadmits, .inr ⟨again, more, hagain, hleads⟩⟩
    · rintro ⟨dir, steps, heq, hadmits, hinside⟩
      rw [heq] at hplace ⊢
      rw [allows_resolve_append_iff (hplain dir hadmits.mem_places) hplace hadmits]
      rcases hinside with hup | ⟨again, more, hagain, hleads⟩
      · exact continues_of_up_eq_zero hadmits hup
      · exact ⟨again, more, hleads, hagain⟩
  · intro dir hdir hcanonical habsolute target htarget htarget' hnone
    obtain ⟨steps, hlonger, hlonger', hresolve⟩ := Location.resolve_escape hcanonical habsolute
      (hplain dir (Directories.mem_places_iff.2 (.inr hdir))) htarget htarget' hnone
    have hadmitted := (allows_ofDirectories_iff (d := d) (hlonger.isRooted hlonger')).2
      ⟨dir, steps, rfl, .inl hdir⟩
    exact ⟨dir ++ steps, hlonger, hlonger', hadmitted, hresolve⟩

/-- The double dot in `/r/a/../b` leads back to the recursive directory `/r` and no further. -/
theorem allows_resolve_iff_confined_inside :
    let d : Directories := ⟨[Path.ofString "/s"], [Path.ofString "/r"], []⟩
    let w : Watches := { Watches.empty with eligibility := some (ofDirectories d) }
    let place := (Path.ofString "/r/a/../b").location
    let attributes := Attributes.empty.setFile place (.known ⟨.directory, none, none, false⟩)
    let request : IndexRequest := .directory "file:///r/a/../b" (some "x")
    (∀ dir ∈ d.places, .parent ∉ dir) ∧ ∃ p a, request.probe attributes false = .ok p ∧
      w.apply (.empty .none) p = .ok a ∧ (ofDirectories d).allows p.place.resolve = true := by
  intro d w place attributes request
  have hplain : ∀ dir ∈ d.places, .parent ∉ dir := by decide
  let p : ProbedRequest := ⟨request, place, ⟨.directory, none, none, false⟩⟩
  have hprobe : request.probe attributes false = .ok p := by decide
  obtain ⟨a, happly⟩ : ∃ a, w.apply (.empty .none) p = .ok a := ⟨_, rfl⟩
  obtain ⟨hiff, -⟩ := allows_resolve_iff_confined hplain
  refine ⟨hplain, p, a, hprobe, happly, ?_⟩
  exact (hiff w (.empty .none) request attributes false p a rfl hprobe happly).2
    ⟨(Path.ofString "/r").location, (Path.ofString "a/../b").location, by decide,
      .inl (by decide), .inl (by decide)⟩

/-- The restriction can be escaped: with the recursive directory `/r` and the single directory `/s`
the request for `/r/../etc` is let through, which is the directory `/etc`. -/
theorem escapes_restriction :
    let d : Directories := ⟨[Path.ofString "/s"], [Path.ofString "/r"], []⟩
    let w : Watches := { Watches.empty with eligibility := some (ofDirectories d) }
    let place := (Path.ofString "/r/../etc").location
    let attributes := Attributes.empty.setFile place (.known ⟨.directory, none, none, false⟩)
    let request : IndexRequest := .directory "file:///r/../etc" (some "x")
    let p : ProbedRequest := ⟨request, place, ⟨.directory, none, none, false⟩⟩
    (∀ dir ∈ d.places, .parent ∉ dir) ∧ request.probe attributes false = .ok p ∧
      (w.apply (.empty .none) p).toOption.isSome = true ∧
      place.resolve = (Path.ofString "/etc").location ∧
      (ofDirectories d).allows place.resolve = false := by
  decide

end Eligibility

end IndexControl
