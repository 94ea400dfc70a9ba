import IndexControl.Proofs.Path.Joining
import IndexControl.Proofs.Path.Texts

/-!
# One spelling for each place

Of all spellings of an absolute path one is the plainest: every byte of it counts. There is no dot
between its slashes, no two slashes stand together, and none stands at the end, unless the path is
the root. Normalizing gives this spelling and resolves no double dot, so that places can be compared
by the bytes of their normal forms. A normal form is also what comes of putting the steps of a path
one below the other.

## Main definitions

* `Path.IsTidy`: spellings of absolute paths in which every byte counts.

## Main results

* `Path.isTidy_normalize`, `Path.IsTidy.normalize_eq`: the tidy spellings are the normal forms of
  absolute paths.
* `Location.toPath_eq_foldl_join`, `Path.normalize_eq_foldl_join`: normal forms put together step by
  step.
* `Path.normalize_canonical`: normal forms tell places, and which place lies in which.
-/

namespace IndexControl

namespace Path

variable {p q : Path}

/-! ### Tidy spellings -/

/-- A spelling of an absolute path in which every byte counts. -/
structure IsTidy (p : Path) : Prop where
  isAbsolute : p.isAbsolute = true
  dot_notMem : [dot] ∉ split p.bytes
  /-- Only in front of the first slash there is nothing. -/
  nil_notMem : p.bytes ≠ [slash] → [] ∉ (split p.bytes).tail
  getLast?_ne : p.bytes ≠ [slash] → p.bytes.getLast? ≠ some slash

/-- Behind a slash at the end there is an empty piece. -/
theorem getLast?_ne_of_nil_notMem {bytes : List UInt8} (h : [] ∉ (split bytes).tail) :
    bytes.getLast? ≠ some slash := by
  intro hlast
  obtain ⟨front, rfl⟩ := List.getLast?_eq_some_iff.1 hlast
  rw [split_append, split_nil, List.tail_append_of_ne_nil (split_ne_nil front)] at h
  exact h (List.mem_append_right _ List.mem_cons_self)

/-- The pieces of a normal form are those of the steps behind the root. -/
theorem split_normalize (h : p.isAbsolute = true) (hsteps : p.steps ≠ []) :
    split p.normalize.bytes = [] :: p.steps.map Component.toPiece := by
  have hlocation := location_of_isAbsolute h
  have hroot : p.location ≠ [.root] := by simpa [hlocation] using hsteps
  rw [normalize_of_isAbsolute h,
    Location.split_toPath p.location_isSpelled (location_ne_nil h) hroot, hlocation]
  rfl

theorem isIdle_eq_false_of_mem_steps {c : Component} (hc : c ∈ p.steps) :
    isIdle c.toPiece = false := by
  obtain ⟨hmem, hstep⟩ := List.mem_filter.1 hc
  refine Component.isIdle_toPiece (p.location_isSpelled.1 c hmem) ?_ ?_
  · rintro rfl
    exact Bool.noConfusion hstep
  · rintro rfl
    exact Bool.noConfusion hstep

/-- The normal form of an absolute path is tidy. -/
theorem isTidy_normalize (h : p.isAbsolute = true) : p.normalize.IsTidy := by
  by_cases hsteps : p.steps = []
  · have hroot : p.normalize = ⟨[slash]⟩ := by
      rw [normalize_of_isAbsolute h, location_of_isAbsolute h, hsteps]
      rfl
    rw [hroot]
    exact ⟨rfl, by decide, fun hne => absurd rfl hne, fun hne => absurd rfl hne⟩
  · have hsplit := split_normalize h hsteps
    have hidle : ∀ piece ∈ p.steps.map Component.toPiece, isIdle piece = false :=
      List.forall_mem_map.2 fun c hc => isIdle_eq_false_of_mem_steps hc
    have hnil : [] ∉ (split p.normalize.bytes).tail := by
      rw [hsplit]
      exact fun hmem => Bool.noConfusion (hidle [] hmem)
    refine ⟨isAbsolute_normalize h, ?_, fun _ => hnil, fun _ => getLast?_ne_of_nil_notMem hnil⟩
    rw [hsplit, List.mem_cons]
    rintro (hdot | hmem)
    · exact absurd hdot (List.cons_ne_nil dot [])
    · exact Bool.noConfusion (hidle [dot] hmem)

/-- Behind the first slash of a tidy spelling every piece counts, unless it spells the root. -/
theorem IsTidy.isIdle_eq_false {rest : List UInt8} (h : IsTidy ⟨slash :: rest⟩)
    (hroot : rest ≠ []) : ∀ piece ∈ split rest, isIdle piece = false := by
  intro piece hpiece
  have hnil : piece ≠ [] := by
    rintro rfl
    refine h.nil_notMem (by simpa using hroot) ?_
    rwa [split_slash_cons]
  have hdot : piece ≠ [dot] := by
    rintro rfl
    refine h.dot_notMem ?_
    rw [split_slash_cons]
    exact List.mem_cons_of_mem [] hpiece
  simp [isIdle, hnil, hdot]

/-- Where every piece counts, the steps are spelled by the pieces as they stand. -/
theorem toPath_location_of_isIdle {rest : List UInt8}
    (h : ∀ piece ∈ split rest, isIdle piece = false) :
    (location ⟨slash :: rest⟩).toPath = ⟨slash :: rest⟩ := by
  have hkept : (split rest).filter (fun piece => !isIdle piece) = split rest :=
    List.filter_eq_self.2 fun piece hpiece => by rw [h piece hpiece]; rfl
  have hlocation : location ⟨slash :: rest⟩ = .root :: (split rest).map Component.ofPiece := by
    rw [location_of_split_root (split_slash_cons rest) (split_ne_nil rest), componentsOf, hkept]
  have hpieces : (location ⟨slash :: rest⟩).map Component.toPiece = split (slash :: rest) := by
    rw [hlocation, List.map_cons, List.map_map, split_slash_cons]
    exact congrArg ([] :: ·) (List.map_id'' toPiece_ofPiece _)
  have hroot : location ⟨slash :: rest⟩ ≠ [.root] := by
    rw [hlocation]
    simpa using split_ne_nil rest
  rw [Location.toPath_of_ne_root hroot, hpieces, joinPieces_split]

/-- A tidy spelling is its own normal form, so that a place has no other one. -/
theorem IsTidy.normalize_eq (h : p.IsTidy) : p.normalize = p := by
  obtain ⟨bytes⟩ := p
  obtain ⟨rest, rfl⟩ := List.head?_eq_some_iff.1 (of_decide_eq_true h.isAbsolute)
  by_cases hroot : rest = []
  · rw [hroot]
    rfl
  · rw [normalize_of_isAbsolute h.isAbsolute]
    exact toPath_location_of_isIdle (h.isIdle_eq_false hroot)

end Path

/-! ### Step by step -/

namespace Location

variable {l : Location} {c : Component}

theorem IsSpelled.of_append {l m : Location} (h : (l ++ m).IsSpelled) : l.IsSpelled := by
  refine ⟨fun c hc => h.1 c (List.mem_append_left m hc), fun c hc => h.2 c ?_⟩
  cases l with
  | nil => cases hc
  | cons d l => exact List.mem_append_left m hc

theorem IsSpelled.plain_of_concat (h : (l ++ [c]).IsSpelled) (hne : l ≠ []) :
    c ≠ .root ∧ c ≠ .current := by
  refine h.2 c ?_
  rw [List.tail_append_of_ne_nil hne]
  exact List.mem_append_right _ List.mem_cons_self

/-- The spelling of some steps ends in a slash only at the root. -/
theorem IsSpelled.getLast?_toPath_ne (h : l.IsSpelled) (hne : l ≠ []) (hroot : l ≠ [.root]) :
    l.toPath.bytes.getLast? ≠ some Path.slash := by
  refine Path.getLast?_ne_of_nil_notMem ?_
  rw [split_toPath h hne hroot, ← List.map_tail, List.mem_map]
  rintro ⟨c, hc, hnil⟩
  exact Component.toPiece_ne_nil (h.1 c (List.mem_of_mem_tail hc)) (h.2 c hc).1 hnil

theorem IsSpelled.bytes_toPath_ne_nil (h : l.IsSpelled) (hne : l ≠ []) : l.toPath.bytes ≠ [] := by
  intro hnil
  have hlocation := location_toPath h
  rw [Path.location, hnil] at hlocation
  exact hne hlocation.symm

/-- One step more is put below the path so far. -/
theorem toPath_concat (h : (l ++ [c]).IsSpelled) :
    toPath (l ++ [c]) = l.toPath.join (toPath [c]) := by
  by_cases hne : l = []
  · subst hne
    rw [List.nil_append, Path.join]
    split <;> rfl
  have hstep := (h.plain_of_concat hne).1
  have hspellable : c.IsSpellable := h.1 c (List.mem_append_right l List.mem_cons_self)
  have hone : toPath [c] = ⟨c.toPiece⟩ := toPath_of_ne_root (by simpa using hstep)
  have hrelative : (toPath [c]).isAbsolute = false := by
    rw [hone]
    exact Path.isAbsolute_of_slash_notMem (Component.slash_notMem_toPiece hspellable)
  have hlong : l ++ [c] ≠ [.root] := fun heq => hne (by simpa using congrArg List.length heq)
  rw [Path.join, if_neg (by simp [hrelative]), toPath_of_ne_root hlong, List.map_append]
  by_cases hroot : l = [.root]
  · subst hroot
    rw [hone]
    rfl
  · have hlast := h.of_append.getLast?_toPath_ne hne hroot
    have hbytes := h.of_append.bytes_toPath_ne_nil hne
    rw [if_neg (by simp [hlast, hbytes]), hone, toPath_of_ne_root hroot]
    exact congrArg Path.mk (Path.joinPieces_concat (by simpa using hne) c.toPiece)

/-- The plainest spelling of steps is what comes of putting one below the other. -/
theorem toPath_eq_foldl_join (h : l.IsSpelled) :
    l.toPath = l.foldl (fun p c => p.join (toPath [c])) ⟨[]⟩ := by
  induction l using List.reverseRecOn with
  | nil => rfl
  | append_singleton l c ih => rw [toPath_concat h, List.foldl_concat, ih h.of_append]

end Location

namespace Path

/-- A normal form is what comes of putting all steps but the dots one below the other, or a dot where
nothing comes of it. -/
theorem normalize_eq_foldl_join (p : Path) :
    let steps := p.location.filter (· ≠ .current)
    let joined := steps.foldl (fun q c => q.join (Location.toPath [c])) ⟨[]⟩
    p.normalize = if joined.bytes = [] then ⟨[dot]⟩ else joined := by
  intro steps joined
  have hspelled : Location.IsSpelled steps := Location.isSpelled_filter p.location_isSpelled _
  have hjoined : joined = Location.toPath steps := (Location.toPath_eq_foldl_join hspelled).symm
  by_cases hsteps : steps = []
  · rw [normalize, Location.canonical_of_filter_eq_nil hsteps, hjoined, hsteps]
    rfl
  · rw [if_neg (hjoined ▸ hspelled.bytes_toPath_ne_nil hsteps), hjoined, normalize,
      Location.canonical_of_filter_ne_nil hsteps]

/-! ### Comparing places -/

/-- A normal form is what comes of putting all steps but the dots one below the other, and
normalizing a second time changes nothing. The normal forms of absolute paths are the tidy
spellings. Absolute paths name one place just where their normal forms are the same bytes, and the
place of one lies at or below that of another just where this can be said of their normal forms. -/
theorem normalize_canonical (p q : Path) :
    let steps := p.location.filter (· ≠ .current)
    let joined := steps.foldl (fun r c => r.join (Location.toPath [c])) ⟨[]⟩
    p.normalize = (if joined.bytes = [] then ⟨[dot]⟩ else joined) ∧
      p.normalize.normalize = p.normalize ∧
      (p.isAbsolute = true → p.normalize.IsTidy) ∧
      (p.IsTidy → p.normalize = p) ∧
      (p.isAbsolute = true → q.isAbsolute = true →
        (p.sameAs q = true ↔ p.normalize.bytes = q.normalize.bytes) ∧
        (p.startsWith q = true ↔ p.normalize.startsWith q.normalize = true)) := by
  intro steps joined
  refine ⟨p.normalize_eq_foldl_join, p.normalize_normalize, isTidy_normalize, IsTidy.normalize_eq,
    fun hp hq => ⟨?_, ?_⟩⟩
  · rw [sameAs, decide_eq_true_iff]
    constructor
    · intro hplace
      rw [normalize, normalize, hplace]
    · intro hbytes
      have hnormal : p.normalize = q.normalize := congrArg Path.mk hbytes
      rw [← location_normalize_of_isAbsolute hp, hnormal, location_normalize_of_isAbsolute hq]
  · rw [startsWith, startsWith, location_normalize_of_isAbsolute hp,
      location_normalize_of_isAbsolute hq]

/-- Two spellings of one place have one normal form. The double dot in it is kept, so that the place
lies below `/a` and is not `/b`. -/
theorem normalize_canonical_dots :
    let p := Path.ofString "//a/./..//b/."
    let q := Path.ofString "/a/../b/"
    let r := Path.ofString "/a/./"
    let s := Path.ofString "/b"
    let tidy := Path.ofString "/a/../b"
    p.isAbsolute = true ∧ q.isAbsolute = true ∧ r.isAbsolute = true ∧ s.isAbsolute = true ∧
      p.normalize = tidy ∧ p.normalize.IsTidy ∧ tidy.IsTidy ∧ tidy.normalize = tidy ∧
      p.sameAs q = true ∧ p.startsWith r = true ∧ ¬p.startsWith s = true := by
  intro p q r s tidy
  have hp : p.isAbsolute = true := by decide
  have hq : q.isAbsolute = true := by decide
  have hr : r.isAbsolute = true := by decide
  have hs : s.isAbsolute = true := by decide
  have htidy : tidy.IsTidy :=
    ⟨by decide, by decide, fun _ => by decide, fun _ => by decide⟩
  obtain ⟨-, -, hnormal, -, hpq⟩ := normalize_canonical p q
  obtain ⟨-, -, -, hkept, -⟩ := normalize_canonical tidy q
  obtain ⟨hsame, -⟩ := hpq hp hq
  obtain ⟨-, hwithin⟩ := (normalize_canonical p r).2.2.2.2 hp hr
  obtain ⟨-, hapart⟩ := (normalize_canonical p s).2.2.2.2 hp hs
  exact ⟨hp, hq, hr, hs, by decide, hnormal hp, htidy, hkept htidy, hsame.2 (by decide),
    hwithin.2 (by decide), hapart.not.2 (by decide)⟩

/-- A dot in front of a relative path is a step, which its normal form does not keep. -/
example : (ofString "./a").normalize = (ofString "a").normalize ∧
    (ofString "./a").sameAs (ofString "a") = false := by decide

end Path

end IndexControl
