import IndexControl.Proofs.Directories.Canonical

/-!
# What reconciling keeps and what it reports

Of the written entries reconciling keeps the first of each single directory, and the first of each
recursive directory that lies below no other one and is not single as well. It reports every other
entry once. Recursive directories that are left after the single ones have been taken out lie apart
already, so that collapsing them again changes nothing.

## Main definitions

* `Directories.reading`: what a written entry comes to.
* `Directories.Diagnostic.subject`: the entry that a diagnostic is about.

## Main results

* `Directories.distinct_eq_eraseDups`: of equal paths the first one is kept.
* `Directories.perm_reconcile`: each entry is kept or reported, and nothing is reported twice.
* `Directories.reconcile_outermost_accounted`: the lists that reconciling gives.
-/

namespace IndexControl

namespace Directories

variable {env : Environment} {raw rawSingle rawRecursive : List String} {p q : Path}

/-! ### Paths without repetition -/

/-- Entries resolve to paths in their plainest spelling. -/
theorem toPath_location_of_mem_resolved (h : p ∈ resolved env raw) : p.location.toPath = p := by
  obtain ⟨entry, -, hentry⟩ := List.mem_filterMap.1 h
  rw [Entry.resolveText?, Entry.resolve?] at hentry
  obtain ⟨q, -, rfl⟩ := Option.map_eq_some_iff.1 hentry
  rw [Path.location_normalize, Path.normalize]

/-- Resolved paths name one place just where they are equal. -/
theorem sameAs_eq_beq (hp : p ∈ resolved env raw) (hq : q ∈ resolved env rawSingle) :
    p.sameAs q = (p == q) := by
  rw [Bool.eq_iff_iff, Path.sameAs, decide_eq_true_iff, beq_iff_eq]
  refine ⟨fun heq => ?_, congrArg Path.location⟩
  rw [← toPath_location_of_mem_resolved hp, heq, toPath_location_of_mem_resolved hq]

/-- Of paths that name one place just where they are equal, the first of each is kept. -/
theorem distinct_eq_eraseDups {paths : List Path} (seen : List Path)
    (h : ∀ p ∈ paths, ∀ q ∈ paths, p.sameAs q = (p == q)) :
    distinct seen paths = (paths.filter fun p => !seen.any p.sameAs).eraseDups := by
  induction paths generalizing seen with
  | nil => rfl
  | cons p rest ih =>
    have hrest : ∀ p ∈ rest, ∀ q ∈ rest, p.sameAs q = (p == q) := fun a ha b hb =>
      h a (List.mem_cons_of_mem p ha) b (List.mem_cons_of_mem p hb)
    rw [distinct]
    cases hseen : seen.any p.sameAs with
    | true => simp [hseen, ih seen hrest]
    | false =>
      have hfilter : (rest.filter fun q => !(p :: seen).any q.sameAs) =
          (rest.filter fun q => !seen.any q.sameAs).filter fun q => !q == p := by
        rw [List.filter_filter]
        refine List.filter_congr fun q hq => ?_
        rw [List.any_cons, h q (List.mem_cons_of_mem p hq) p List.mem_cons_self, Bool.not_or]
      rw [List.filter_cons_of_pos (by rw [hseen]; rfl), List.eraseDups_cons, ← hfilter,
        ← ih (p :: seen) hrest]
      simp

theorem distinct_resolved (env : Environment) (raw : List String) :
    distinct [] (resolved env raw) = (resolved env raw).eraseDups := by
  rw [distinct_eq_eraseDups [] fun p hp q hq => sameAs_eq_beq hp hq]
  simp

theorem perm_distinct (seen paths : List Path) :
    paths.Perm (distinct seen paths ++ repeated seen paths) := by
  induction paths generalizing seen with
  | nil => exact .nil
  | cons p rest ih =>
    rw [distinct, repeated]
    split
    · exact ((ih seen).cons p).trans List.perm_middle.symm
    · exact (ih (p :: seen)).cons p

/-! ### The recursive directories -/

theorem isBelow_of_mem_unshadowed (hp : p ∈ unshadowed env rawSingle rawRecursive)
    (hq : q ∈ unshadowed env rawSingle rawRecursive) : p.location.isBelow q.location = false := by
  have hne : ∀ p ∈ distinct [] (resolved env rawRecursive), p.location ≠ [] :=
    fun p hp => (isCanonical_of_mem_distinct hp).ne_nil
  have hp := (Path.mem_collapse_iff hne).1 (List.mem_of_mem_filter hp)
  exact hp.2 q ((Path.mem_collapse_iff hne).1 (List.mem_of_mem_filter hq)).1

theorem startsWith_of_mem_unshadowed (hp : p ∈ unshadowed env rawSingle rawRecursive)
    (hq : q ∈ unshadowed env rawSingle rawRecursive) (hne : p ≠ q) : p.startsWith q = false := by
  have hresolved {p : Path} (h : p ∈ unshadowed env rawSingle rawRecursive) :
      p.location.toPath = p :=
    toPath_location_of_mem_resolved <| (distinct_sublist [] _).mem <|
      List.mem_of_mem_filter (List.mem_of_mem_filter h)
  rw [Path.startsWith, Bool.eq_false_iff, ne_eq, Location.startsWith_iff_eq_or_isBelow,
    isBelow_of_mem_unshadowed hp hq]
  rintro (heq | hbelow)
  · exact hne (by rw [← hresolved hp, heq, hresolved hq])
  · cases hbelow

/-- The second collapse drops nothing. -/
theorem collapse_unshadowed (env : Environment) (rawSingle rawRecursive : List String) :
    Path.collapse (unshadowed env rawSingle rawRecursive) =
      (unshadowed env rawSingle rawRecursive, []) :=
  Path.collapse_eq_self (fun _ hp => (isCanonical_of_mem_unshadowed hp).ne_nil)
    fun _ hp _ hq => isBelow_of_mem_unshadowed hp hq

theorem recursive_reconcile (env : Environment) (rawSingle rawRecursive : List String) :
    (reconcile env rawSingle rawRecursive).recursive = unshadowed env rawSingle rawRecursive := by
  have hcollapsed := congrArg Prod.fst (collapse_unshadowed env rawSingle rawRecursive)
  refine Eq.trans ?_ hcollapsed
  simp only [reconcile, List.partition_eq_filter_filter]
  rfl

theorem unshadowed_eq_filter (env : Environment) (rawSingle rawRecursive : List String) :
    unshadowed env rawSingle rawRecursive = (resolved env rawRecursive).eraseDups.filter fun p =>
      decide (p ∉ resolved env rawSingle ∧
        ∀ q ∈ resolved env rawRecursive, p.location.isBelow q.location = false) := by
  have hne : ∀ l ∈ (distinct [] (resolved env rawRecursive)).map Path.location, l ≠ [] :=
    List.forall_mem_map.2 fun p hp => (isCanonical_of_mem_distinct hp).ne_nil
  rw [unshadowed, Path.collapse, List.filter_filter]
  rw [distinct_resolved env rawRecursive] at hne ⊢
  refine List.filter_congr fun p hp => ?_
  have hp : p ∈ resolved env rawRecursive := List.mem_eraseDups.1 hp
  have hsingle : (distinct [] (resolved env rawSingle)).any p.sameAs = true ↔
      p ∈ resolved env rawSingle := by
    rw [distinct_resolved, List.any_eq_true]
    constructor
    · rintro ⟨q, hq, hsame⟩
      have hq := List.mem_eraseDups.1 hq
      rw [sameAs_eq_beq hp hq, beq_iff_eq] at hsame
      exact hsame ▸ hq
    · exact fun hmem => ⟨p, List.mem_eraseDups.2 hmem, decide_eq_true rfl⟩
  rw [Bool.eq_iff_iff, Bool.and_eq_true, Bool.not_eq_true', Bool.eq_false_iff, ne_eq, hsingle,
    Path.selectedAncestor?_isNone_iff hne, decide_eq_true_iff, List.forall_mem_map]
  simp only [List.mem_eraseDups]

/-- The recursive paths that lie below no other one and are listed as single ones too. -/
def shadowed (env : Environment) (rawSingle rawRecursive : List String) : List Path :=
  (Path.collapse (distinct [] (resolved env rawRecursive))).1.filter fun path =>
    (distinct [] (resolved env rawSingle)).any path.sameAs

/-! ### Entries and diagnostics -/

/-- What a written entry comes to: the path for which it stands, or its own text where it does not
resolve. -/
inductive Reading where
  | path (path : Path)
  | text (raw : String)
deriving DecidableEq

/-- What a written entry comes to. -/
def reading (env : Environment) (entry : String) : Reading :=
  (Entry.resolveText? env entry).elim (.text entry) .path

/-- The entry that a diagnostic is about, with whether it was listed as recursive. -/
def Diagnostic.subject : Diagnostic → Bool × Reading
  | unresolvable raw recursive => (recursive, .text raw)
  | duplicate path recursive => (recursive, .path path)
  | covered path _ | shadowed path => (true, .path path)

theorem perm_reading (env : Environment) (raw : List String) :
    (raw.map (reading env)).Perm
      ((unresolved env raw).map .text ++ (resolved env raw).map .path) := by
  induction raw with
  | nil => exact .nil
  | cons entry raw ih =>
    cases hentry : Entry.resolveText? env entry with
    | none =>
      have hun : unresolved env (entry :: raw) = entry :: unresolved env raw :=
        List.filter_cons_of_pos (by rw [hentry]; rfl)
      have hre : resolved env (entry :: raw) = resolved env raw :=
        List.filterMap_cons_none hentry
      rw [hun, hre, List.map_cons, reading, hentry]
      exact ih.cons _
    | some p =>
      have hun : unresolved env (entry :: raw) = unresolved env raw :=
        List.filter_cons_of_neg (by rw [hentry]; exact Bool.noConfusion)
      have hre : resolved env (entry :: raw) = p :: resolved env raw :=
        List.filterMap_cons_some hentry
      rw [hun, hre, List.map_cons, reading, hentry]
      exact (ih.cons _).trans List.perm_middle.symm

/-- The entries of one list are its distinct paths, the repeated ones and those that do not
resolve. -/
theorem perm_entries (env : Environment) (raw : List String) (recursive : Bool) :
    (raw.map fun entry => (recursive, reading env entry)).Perm
      ((unresolved env raw).map (fun entry => (recursive, .text entry)) ++
        ((distinct [] (resolved env raw)).map (fun p => (recursive, .path p)) ++
          (repeated [] (resolved env raw)).map fun p => (recursive, .path p))) := by
  have hread := (perm_reading env raw).map (recursive, ·)
  have hpaths := (perm_distinct [] (resolved env raw)).map fun p =>
    ((recursive, .path p) : Bool × Reading)
  rw [List.map_append, List.map_map, List.map_map, List.map_map] at hread
  rw [List.map_append] at hpaths
  exact hread.trans (hpaths.append_left _)

/-- What was listed as recursive without repetition is kept, or is told to be single as well or to
lie below another directory. -/
theorem perm_unshadowed (env : Environment) (rawSingle rawRecursive : List String) :
    (distinct [] (resolved env rawRecursive)).Perm
      (unshadowed env rawSingle rawRecursive ++
        (shadowed env rawSingle rawRecursive ++
          (Path.collapse (distinct [] (resolved env rawRecursive))).2.map Path.Covered.path)) := by
  have hparted := List.filter_append_perm
    (fun path => (distinct [] (resolved env rawSingle)).any path.sameAs)
    (Path.collapse (distinct [] (resolved env rawRecursive))).1
  have hparted := List.perm_append_comm.trans hparted
  rw [← List.append_assoc]
  exact (Path.perm_collapse _).trans (hparted.symm.append_right _)

/-- The diagnostics tell, list by list, of entries that do not resolve, of repeated ones, and of
recursive directories that lie below others or are single as well. -/
theorem diagnostics_reconcile (env : Environment) (rawSingle rawRecursive : List String) :
    (reconcile env rawSingle rawRecursive).diagnostics =
      (unresolved env rawSingle).map (.unresolvable · false) ++
      (repeated [] (resolved env rawSingle)).map (.duplicate · false) ++
      (unresolved env rawRecursive).map (.unresolvable · true) ++
      (repeated [] (resolved env rawRecursive)).map (.duplicate · true) ++
      coveredDiagnostics (Path.collapse (distinct [] (resolved env rawRecursive))).2 ++
      (shadowed env rawSingle rawRecursive).map .shadowed := by
  have hagain := congrArg Prod.snd (collapse_unshadowed env rawSingle rawRecursive)
  have hsplit : (reconcile env rawSingle rawRecursive).diagnostics =
      (unresolved env rawSingle).map (.unresolvable · false) ++
      (repeated [] (resolved env rawSingle)).map (.duplicate · false) ++
      (unresolved env rawRecursive).map (.unresolvable · true) ++
      (repeated [] (resolved env rawRecursive)).map (.duplicate · true) ++
      coveredDiagnostics (Path.collapse (distinct [] (resolved env rawRecursive))).2 ++
      (shadowed env rawSingle rawRecursive).map .shadowed ++
      coveredDiagnostics (Path.collapse (unshadowed env rawSingle rawRecursive)).2 := by
    simp only [reconcile, List.partition_eq_filter_filter]
    rfl
  rw [hsplit, hagain]
  exact List.append_nil _

/-- The entries that the diagnostics are about. -/
theorem map_subject_reconcile (env : Environment) (rawSingle rawRecursive : List String) :
    (reconcile env rawSingle rawRecursive).diagnostics.map Diagnostic.subject =
      (unresolved env rawSingle).map (fun entry => (false, .text entry)) ++
      (repeated [] (resolved env rawSingle)).map (fun p => (false, .path p)) ++
      (unresolved env rawRecursive).map (fun entry => (true, .text entry)) ++
      (repeated [] (resolved env rawRecursive)).map (fun p => (true, .path p)) ++
      ((Path.collapse (distinct [] (resolved env rawRecursive))).2.map Path.Covered.path).map
        (fun p => (true, .path p)) ++
      (shadowed env rawSingle rawRecursive).map fun p => (true, .path p) := by
  rw [diagnostics_reconcile]
  simp only [coveredDiagnostics, List.map_append, List.map_map]
  rfl

/-- **Each entry is kept or reported, and nothing is reported twice.** The written entries are
those of the canonical directories and those of the diagnostics, each as often as it is written. -/
theorem perm_reconcile (env : Environment) (rawSingle rawRecursive : List String) :
    (rawSingle.map (fun entry => (false, reading env entry)) ++
        rawRecursive.map fun entry => (true, reading env entry)).Perm
      ((reconcile env rawSingle rawRecursive).roots.map (fun root => (root.2, .path root.1)) ++
        (reconcile env rawSingle rawRecursive).diagnostics.map Diagnostic.subject) := by
  have hsingle := perm_entries env rawSingle false
  have hrecursive := perm_entries env rawRecursive true
  have hparted := (perm_unshadowed env rawSingle rawRecursive).map fun p =>
    ((true, .path p) : Bool × Reading)
  have hroots : (reconcile env rawSingle rawRecursive).roots.map
      (fun root => ((root.2, .path root.1) : Bool × Reading)) =
      (distinct [] (resolved env rawSingle)).map (fun p => (false, .path p)) ++
        (unshadowed env rawSingle rawRecursive).map fun p => (true, .path p) := by
    rw [roots, recursive_reconcile, List.map_append, List.map_map, List.map_map]
    rfl
  rw [hroots, map_subject_reconcile]
  -- What is left is to add up how often an entry occurs in each of the parts.
  refine List.perm_iff_count.2 fun entry => ?_
  have hsingle := hsingle.count_eq entry
  have hrecursive := hrecursive.count_eq entry
  have hparted := hparted.count_eq entry
  simp only [List.map_append, List.count_append] at *
  omega

/-- **The canonical form of the configured directories.** The single directories are those that
the entries stand for, each listed once where it comes first. The recursive ones are likewise those
that the entries stand for, each once, but for the single ones and those that lie below another one
that an entry stands for. So no recursive directory is or lies below another one that is listed, none
is listed as single too, and collapsing the list a second time drops nothing. Each written entry is
that of one listed directory or of one diagnostic, so that there are as many entries as directories
and diagnostics. -/
theorem reconcile_outermost_accounted (env : Environment) (rawSingle rawRecursive : List String) :
    let single := resolved env rawSingle
    let recursive := resolved env rawRecursive
    let d := reconcile env rawSingle rawRecursive
    d.single = single.eraseDups ∧
    d.recursive = (recursive.eraseDups.filter fun p =>
      decide (p ∉ d.single ∧ ∀ q ∈ recursive, p.location.isBelow q.location = false)) ∧
    (d.recursive.Pairwise fun p q => p.startsWith q = false ∧ q.startsWith p = false) ∧
    (∀ p ∈ d.single, ∀ q ∈ d.recursive, p.sameAs q = false) ∧
    Path.collapse (unshadowed env rawSingle rawRecursive) =
      (unshadowed env rawSingle rawRecursive, []) ∧
    (rawSingle.map (fun entry => (false, reading env entry)) ++
        rawRecursive.map fun entry => (true, reading env entry)).Perm
      (d.roots.map (fun root => (root.2, .path root.1)) ++ d.diagnostics.map Diagnostic.subject) ∧
    rawSingle.length + rawRecursive.length =
      d.single.length + d.recursive.length + d.diagnostics.length := by
  intro single recursive d
  have hperm := perm_reconcile env rawSingle rawRecursive
  have hsingle : d.single = single.eraseDups := distinct_resolved env rawSingle
  have hmem (p : Path) : p ∈ d.single ↔ p ∈ single := by rw [hsingle, List.mem_eraseDups]
  have hrecursive : d.recursive = unshadowed env rawSingle rawRecursive :=
    recursive_reconcile env rawSingle rawRecursive
  have hcanonical := canonical_reconcile env rawSingle rawRecursive
  refine ⟨hsingle, ?_, ?_, fun p hp q hq => ?_, collapse_unshadowed .., hperm, ?_⟩
  · rw [hrecursive, unshadowed_eq_filter]
    simp only [hmem]
    rfl
  · have hdistinct : (distinct [] recursive).Nodup :=
      List.Pairwise.of_map Path.location (fun _ _ hne => mt (congrArg _) hne)
        (nodup_distinct [] recursive).1
    have hnodup : d.recursive.Nodup := by
      rw [hrecursive, unshadowed]
      exact (hdistinct.filter _).filter _
    refine hnodup.imp_of_mem fun {p q} hp hq hne => ?_
    rw [hrecursive] at hp hq
    exact ⟨startsWith_of_mem_unshadowed hp hq hne, startsWith_of_mem_unshadowed hq hp hne.symm⟩
  · refine decide_eq_false fun heq => ?_
    exact hcanonical.apart p.location (List.mem_map_of_mem hp) (heq ▸ List.mem_map_of_mem hq)
  · have hlength := hperm.length_eq
    simpa [roots, ← Nat.add_assoc] using hlength

end Directories

end IndexControl
