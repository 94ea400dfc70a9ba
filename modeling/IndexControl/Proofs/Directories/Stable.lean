import IndexControl.Proofs.Directories.Expansion
import IndexControl.Proofs.Directories.Reconciled
import IndexControl.Proofs.Optional

/-!
# Reconciling what has been reconciled

The canonical directories can be written into lists again. Written out, each of them is an absolute
path in normal form, which stands for itself in every environment, as long as no blank at its end is
trimmed away. Since the directories are also listed once and lie apart, reconciling them a second
time keeps them all and reports nothing.

## Main results

* `Entry.resolveText?_eq_self`: a normal path that is written as an entry stands for itself.
* `Directories.reconcile_of_canonical`: entries that stand for canonical directories are kept.
* `Directories.reconcile_reconcile`: reconciled directories stay as they are.
-/

namespace IndexControl

open Text

namespace Text

variable {s : String}

theorem dropBlanks_eq_self {cs : List Char} (h : cs.head?.any isBlank = false) :
    dropBlanks cs = cs := by
  cases cs with
  | nil => rfl
  | cons c cs => exact List.dropWhile_cons_of_neg (by simpa using h)

/-- A text without blanks at its ends is not trimmed. -/
theorem trim_eq_self (hfront : s.toList.head?.any isBlank = false)
    (hback : s.toList.getLast?.any isBlank = false) : trim s = s := by
  have hreverse : s.toList.reverse.head?.any isBlank = false := by rwa [List.head?_reverse]
  rw [trim, dropBlanks_eq_self hfront, dropBlanksEnd, dropBlanks_eq_self hreverse,
    List.reverse_reverse, String.ofList_toList]

end Text

namespace Entry

/-- A path that begins with a slash is not read as anything else. -/
theorem ofText_of_isAbsolute {raw : String} (h : (Path.ofString (trim raw)).isAbsolute = true) :
    ofText raw = .literal (.ofString (trim raw)) := by
  obtain ⟨cs, hcs⟩ := Path.exists_toList_of_isAbsolute h
  rw [ofText]
  simp only [hcs]
  rfl

/-- An absolute path in normal form that is written as an entry stands for itself, unless a blank
at its end is trimmed away. -/
theorem resolveText?_eq_self {s : String} (habsolute : (Path.ofString s).isAbsolute = true)
    (hnormal : (Path.ofString s).normalize = .ofString s)
    (hblank : s.toList.getLast?.any isBlank = false) (env : Environment) :
    resolveText? env s = some (.ofString s) := by
  have htrim : trim s = s := by
    refine trim_eq_self ?_ hblank
    obtain ⟨cs, hcs⟩ := Path.exists_toList_of_isAbsolute habsolute
    rw [hcs]
    rfl
  have hliteral : ofText s = .literal (.ofString s) := by
    have htrimmed : (Path.ofString (trim s)).isAbsolute = true := by rwa [htrim]
    rw [ofText_of_isAbsolute htrimmed, htrim]
  rw [resolveText?, hliteral, resolve?, expand?, Option.filter_some, if_pos habsolute,
    Option.map_some, hnormal]

end Entry

namespace Directories

variable {env : Environment} {rawSingle rawRecursive : List String} {d : Directories}
  {paths : List Path} {p : Path}

/-! ### Entries for canonical directories -/

/-- Paths that name different places, none of them seen before, are all kept. -/
theorem distinct_eq_self {seen : List Path} (hnodup : (paths.map Path.location).Nodup)
    (hnew : ∀ p ∈ paths, ∀ q ∈ seen, p.location ≠ q.location) : distinct seen paths = paths := by
  induction paths generalizing seen with
  | nil => rfl
  | cons p rest ih =>
    obtain ⟨hp, hrest⟩ := List.forall_mem_cons.1 hnew
    obtain ⟨hfirst, hnodup⟩ := List.nodup_cons.1 hnodup
    have hunseen : seen.any p.sameAs = false := by
      rw [List.any_eq_false]
      exact fun q hq hsame => hp q hq (of_decide_eq_true hsame)
    have hlater : ∀ r ∈ rest, ∀ q ∈ p :: seen, r.location ≠ q.location := fun r hr =>
      List.forall_mem_cons.2 ⟨fun heq => hfirst (heq ▸ List.mem_map_of_mem hr), hrest r hr⟩
    rw [distinct, hunseen, if_neg Bool.false_ne_true, ih hnodup hlater]

/-- Entries that stand for canonical directories, one for each, are kept as they are, and none of
them is reported. -/
theorem reconcile_of_canonical (hd : d.Canonical) (hnodup : d.recursivePlaces.Nodup)
    (hsingle : resolved env rawSingle = d.single)
    (hrecursive : resolved env rawRecursive = d.recursive)
    (hlength : rawSingle.length + rawRecursive.length = d.single.length + d.recursive.length) :
    reconcile env rawSingle rawRecursive = ⟨d.single, d.recursive, []⟩ := by
  have hsingle' : (reconcile env rawSingle rawRecursive).single = d.single := by
    change distinct [] (resolved env rawSingle) = d.single
    rw [hsingle, distinct_eq_self hd.nodup_single (by simp)]
  have hcollapse : Path.collapse d.recursive = (d.recursive, []) := by
    refine Path.collapse_eq_self (fun p hp => ?_) fun p hp q hq => ?_
    · exact (hd.recursive_isCanonical _ (List.mem_map_of_mem hp)).ne_nil
    · exact hd.outermost _ (List.mem_map_of_mem hp) _ (List.mem_map_of_mem hq)
  have hrecursive' : (reconcile env rawSingle rawRecursive).recursive = d.recursive := by
    rw [recursive_reconcile, unshadowed, hrecursive, distinct_eq_self hnodup (by simp), hcollapse,
      hsingle, distinct_eq_self hd.nodup_single (by simp), List.filter_eq_self]
    intro p hp
    rw [Bool.not_eq_true', List.any_eq_false]
    intro q hq hsame
    refine hd.apart q.location (List.mem_map_of_mem hq) ?_
    exact of_decide_eq_true hsame ▸ List.mem_map_of_mem hp
  -- as many entries as directories leave nothing to report
  have hdiagnostics : (reconcile env rawSingle rawRecursive).diagnostics = [] := by
    have hcount := (perm_reconcile env rawSingle rawRecursive).length_eq
    simp only [roots, List.length_append, List.length_map, hsingle', hrecursive'] at hcount
    exact List.length_eq_zero_iff.1 (by omega)
  calc reconcile env rawSingle rawRecursive
      = ⟨(reconcile env rawSingle rawRecursive).single,
          (reconcile env rawSingle rawRecursive).recursive,
          (reconcile env rawSingle rawRecursive).diagnostics⟩ := rfl
    _ = ⟨d.single, d.recursive, []⟩ := by rw [hsingle', hrecursive', hdiagnostics]

/-! ### Reconciled directories -/

theorem nodup_recursivePlaces_reconcile (env : Environment)
    (rawSingle rawRecursive : List String) :
    (reconcile env rawSingle rawRecursive).recursivePlaces.Nodup := by
  rw [recursivePlaces, recursive_reconcile, unshadowed]
  exact (nodup_distinct [] _).1.sublist
    ((List.filter_sublist.trans List.filter_sublist).map Path.location)

/-- The canonical directories are absolute paths in normal form. -/
theorem isNormal_of_mem_reconcile
    (h : p ∈ (reconcile env rawSingle rawRecursive).single ++
      (reconcile env rawSingle rawRecursive).recursive) :
    p.isAbsolute = true ∧ p.normalize = p := by
  have hresolved : ∃ raw, p ∈ resolved env raw := by
    rcases List.mem_append.1 h with hsingle | hrecursive
    · exact ⟨rawSingle, (distinct_sublist [] _).subset hsingle⟩
    · have hunshadowed := (mem_recursive_reconcile_iff.1 hrecursive).1
      have hdistinct := List.mem_of_mem_filter (List.mem_of_mem_filter hunshadowed)
      exact ⟨rawRecursive, (distinct_sublist [] _).subset hdistinct⟩
  obtain ⟨raw, hp⟩ := hresolved
  obtain ⟨entry, -, hentry⟩ := List.mem_filterMap.1 hp
  exact Entry.isNormal_of_resolve? hentry

/-- Normal paths that are written out as entries stand for themselves. -/
theorem resolved_of_toString? {texts : List String}
    (htexts : paths.mapM Path.toString? = some texts)
    (hnormal : ∀ p ∈ paths, p.isAbsolute = true ∧ p.normalize = p)
    (hblank : ∀ s ∈ texts, s.toList.getLast?.any isBlank = false) (env : Environment) :
    resolved env texts = paths ∧ texts.length = paths.length := by
  have hforall := Optional.mapM_eq_some_iff.1 htexts
  refine ⟨?_, hforall.length_eq.symm⟩
  induction hforall with
  | nil => rfl
  | @cons p s paths texts htext hforall ih =>
    obtain ⟨⟨habsolute, hself⟩, hnormal⟩ := List.forall_mem_cons.1 hnormal
    obtain ⟨hlast, hblank⟩ := List.forall_mem_cons.1 hblank
    have hp : Path.ofString s = p := congrArg Path.mk (utf8_of_ofUtf8? htext)
    have hentry : Entry.resolveText? env s = some p := by
      subst hp
      exact Entry.resolveText?_eq_self habsolute hself hlast env
    have hrest := ih (Optional.mapM_eq_some_iff.2 hforall) hnormal hblank
    rw [resolved, List.filterMap_cons_some hentry]
    exact congrArg (p :: ·) hrest

/-- **Reconciled directories stay as they are.** The canonical directories of any lists, in any
environment, are absolute paths in normal form. If all of them are texts, none of which ends in a
blank, and they are written into lists again, then reconciling these in any environment gives the
same directories in the same order, and nothing is reported. -/
theorem reconcile_reconcile (env : Environment) (rawSingle rawRecursive : List String) :
    let d := reconcile env rawSingle rawRecursive
    (∀ p ∈ d.single ++ d.recursive, p.isAbsolute = true ∧ p.normalize = p) ∧
    ∀ single recursive : List String,
      d.single.mapM Path.toString? = some single →
      d.recursive.mapM Path.toString? = some recursive →
      (∀ s ∈ single ++ recursive, s.toList.getLast?.any isBlank = false) →
      ∀ env', reconcile env' single recursive = ⟨d.single, d.recursive, []⟩ := by
  intro d
  have hnormal : ∀ p ∈ d.single ++ d.recursive, p.isAbsolute = true ∧ p.normalize = p :=
    fun p => isNormal_of_mem_reconcile
  refine ⟨hnormal, fun single recursive hsingle hrecursive hblank env' => ?_⟩
  obtain ⟨hnormal, hnormal'⟩ := List.forall_mem_append.1 hnormal
  obtain ⟨hblank, hblank'⟩ := List.forall_mem_append.1 hblank
  obtain ⟨hsingle, hlength⟩ := resolved_of_toString? hsingle hnormal hblank env'
  obtain ⟨hrecursive, hlength'⟩ := resolved_of_toString? hrecursive hnormal' hblank' env'
  exact reconcile_of_canonical (canonical_reconcile env rawSingle rawRecursive)
    (nodup_recursivePlaces_reconcile env rawSingle rawRecursive) hsingle hrecursive
    (by rw [hlength, hlength'])

/-- An alias, a variable, the home directory and plain paths, one of which lies below another, are
read again where none of these is known. -/
theorem reconcile_reconcile_mixed :
    let env := Environment.ofTables (some (.ofString "/home/u/"))
      [(.music, .ofString "/home/u/./Music")] [("D", "/srv//x")] [.ofString "/srv/x"]
    let d := reconcile env ["&MUSIC", " ~// é/"] ["$D", "/srv/x/y", "/b/"]
    d.single.mapM Path.toString? = some ["/home/u/Music", "/home/u/ é"] ∧
      d.recursive.mapM Path.toString? = some ["/srv/x", "/b"] ∧
      (∀ s ∈ ["/home/u/Music", "/home/u/ é"] ++ ["/srv/x", "/b"],
        s.toList.getLast?.any isBlank = false) ∧
      d.diagnostics = [.covered (.ofString "/srv/x/y") (.ofString "/srv/x")] ∧
      reconcile (.ofTables .none [] [] []) ["/home/u/Music", "/home/u/ é"] ["/srv/x", "/b"] =
        ⟨d.single, d.recursive, []⟩ := by
  intro env d
  have hsingle : d.single.mapM Path.toString? = some ["/home/u/Music", "/home/u/ é"] := by
    decide +kernel
  have hrecursive : d.recursive.mapM Path.toString? = some ["/srv/x", "/b"] := by decide +kernel
  have hblank : ∀ s ∈ ["/home/u/Music", "/home/u/ é"] ++ ["/srv/x", "/b"],
      s.toList.getLast?.any isBlank = false := by decide +kernel
  exact ⟨hsingle, hrecursive, hblank, by decide +kernel,
    (reconcile_reconcile env _ _).2 _ _ hsingle hrecursive hblank _⟩

end Directories

end IndexControl
