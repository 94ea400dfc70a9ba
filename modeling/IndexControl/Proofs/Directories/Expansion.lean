import IndexControl.Directories.Entry
import IndexControl.Proofs.Path.Joining
import IndexControl.Proofs.Path.Texts

/-!
# Where entries lead

An entry may name the home directory or a variable and go on with a rest. However many slashes the
rest begins with, it stays below this base: the steps of the base come first, and then those of the
rest. No entry of any kind leads to a relative path, or to one that is not in normal form.

## Main definitions

* `Entry.Base`: the home directory or a variable.
* `Entry.Refers`: how an entry is written that leads below a base.

## Main results

* `Entry.isNormal_of_resolve?`: what entries resolve to.
* `Entry.ofText_of_refers`, `Entry.exists_refers`: how entries below a base are read.
* `Entry.location_below`: the steps of a rest below a base.
* `Entry.resolveText?_expands`: where an entry leads that goes below a base.
-/

namespace IndexControl

open Text

namespace Text

variable {sep : Char} {front back cs : List Char}

theorem splitOnce?_append (h : sep ∉ front) :
    splitOnce? sep (front ++ sep :: back) = some (front, back) := by
  induction front with
  | nil => rw [List.nil_append, splitOnce?, if_pos rfl]
  | cons c front ih =>
    obtain ⟨hc, hfront⟩ : sep ≠ c ∧ sep ∉ front := by simpa using h
    rw [List.cons_append, splitOnce?, if_neg hc.symm, ih hfront]
    rfl

theorem splitOnce?_eq_none (h : sep ∉ cs) : splitOnce? sep cs = none := by
  induction cs with
  | nil => rfl
  | cons c cs ih =>
    obtain ⟨hc, hcs⟩ : sep ≠ c ∧ sep ∉ cs := by simpa using h
    rw [splitOnce?, if_neg hc.symm, ih hcs]
    rfl

end Text

namespace Entry

/-- What an entry can lead below: the home directory, or what a variable with a name holds. -/
inductive Base where
  | home
  | named (name : String)
deriving DecidableEq

/-- The path of a base, if there is one. -/
def Base.path? (env : Environment) : Base → Option Path
  | home => env.home
  | named name => (env.lookUp? name).map .ofString

/-- The entry that goes on with a rest below a base. -/
def Base.entry (rest : Option Path) : Base → Entry
  | home => .home rest
  | named name => .reference name rest

/-- How an entry is written that leads below a base, and the rest with which it goes on. A tilde
stands for the home directory, alone or before a slash. A variable follows a dollar sign: its name
ends before the first slash, or it stands in braces and ends at the first closing one. Where none
closes, there is no rest. -/
inductive Refers : List Char → Base → List Char → Prop
  | home : Refers ['~'] .home []
  | belowHome (rest : List Char) : Refers ('~' :: '/' :: rest) .home rest
  | plain {name rest : List Char} (hname : '/' ∉ name) (hbrace : name.head? ≠ some '{')
      (hrest : rest = [] ∨ rest.head? = some '/') :
      Refers ('$' :: (name ++ rest)) (.named (.ofList name)) rest
  | braced {name : List Char} (hname : '\x7d' ∉ name) (rest : List Char) :
      Refers ('$' :: '{' :: (name ++ '\x7d' :: rest)) (.named (.ofList name)) rest
  | unclosed {name : List Char} (hname : '\x7d' ∉ name) :
      Refers ('$' :: '{' :: name) (.named (.ofList name)) []

variable {env : Environment} {raw : String} {base : Base} {cs name rest : List Char}
  {p value : Path}

/-! ### Entries of any kind -/

/-- Entries resolve to absolute paths in normal form. -/
theorem isNormal_of_resolve? {entry : Entry} (h : entry.resolve? env = some p) :
    p.isAbsolute = true ∧ p.normalize = p := by
  obtain ⟨path, hpath, rfl⟩ := Option.map_eq_some_iff.1 h
  have habsolute := (Option.filter_eq_some_iff.1 hpath).2
  exact ⟨path.isAbsolute_normalize habsolute, path.normalize_normalize⟩

/-! ### Reading an entry below a base -/

theorem splitReference_of_ne (h : cs.head? ≠ some '{') :
    splitReference cs = (cs.takeWhile (· ≠ '/'), cs.dropWhile (· ≠ '/')) := by
  rw [splitReference]
  intro braced heq
  exact h (heq ▸ rfl)

theorem splitReference_plain (hname : '/' ∉ name) (hbrace : name.head? ≠ some '{')
    (hrest : rest = [] ∨ rest.head? = some '/') :
    splitReference (name ++ rest) = (name, rest) := by
  have hinside : ∀ c ∈ name, (c ≠ '/' : Bool) = true := fun c hc =>
    decide_eq_true fun heq => hname (heq ▸ hc)
  have hfront : (name ++ rest).head? ≠ some '{' := by
    cases name with
    | nil =>
      rcases hrest with rfl | hrest
      · simp
      · rw [List.nil_append, hrest]
        decide
    | cons c name => exact hbrace
  have hstop : rest.takeWhile (· ≠ '/') = [] ∧ rest.dropWhile (· ≠ '/') = rest := by
    rcases hrest with rfl | hrest
    · exact ⟨rfl, rfl⟩
    · obtain ⟨more, rfl⟩ := List.head?_eq_some_iff.1 hrest
      exact ⟨rfl, rfl⟩
  rw [splitReference_of_ne hfront, List.takeWhile_append_of_pos hinside,
    List.dropWhile_append_of_pos hinside, hstop.1, hstop.2, List.append_nil]

/-- An entry that is written like one below a base is read as one. -/
theorem ofText_of_refers (h : Refers (trim raw).toList base rest) :
    ofText raw = base.entry (restOf rest) := by
  generalize hcs : (trim raw).toList = cs at h
  rw [ofText]
  simp only [hcs]
  cases h with
  | home => rfl
  | belowHome rest => rfl
  | plain hname hbrace hrest =>
    simp only [splitReference_plain hname hbrace hrest, Base.entry]
  | braced hname rest =>
    simp only [splitReference, splitOnce?_append hname, Option.getD_some, Base.entry]
  | unclosed hname =>
    simp only [splitReference, splitOnce?_eq_none hname, Option.getD_none, Base.entry]

/-- What begins with a dollar sign names a variable. -/
theorem exists_refers_variable (written : List Char) :
    ∃ base rest, Refers ('$' :: written) base rest := by
  by_cases hbrace : written.head? = some '{'
  · obtain ⟨braced, rfl⟩ := List.head?_eq_some_iff.1 hbrace
    by_cases hclosed : '\x7d' ∈ braced
    · obtain ⟨name, rest, rfl, hname⟩ := List.eq_append_cons_of_mem hclosed
      exact ⟨_, rest, .braced hname rest⟩
    · exact ⟨_, [], .unclosed hclosed⟩
  · by_cases hslash : '/' ∈ written
    · obtain ⟨name, rest, rfl, hname⟩ := List.eq_append_cons_of_mem hslash
      refine ⟨_, '/' :: rest, .plain hname ?_ (.inr rfl)⟩
      cases name with
      | nil => simp
      | cons c name => exact hbrace
    · have hwhole := Refers.plain hslash hbrace (.inl rfl)
      rw [List.append_nil] at hwhole
      exact ⟨_, [], hwhole⟩

/-- An entry that begins with a tilde or a dollar sign leads below a base, if it leads anywhere. -/
theorem exists_refers (h : resolveText? env raw = some p)
    (hmark : (trim raw).toList.head? = some '~' ∨ (trim raw).toList.head? = some '$') :
    ∃ base rest, Refers (trim raw).toList base rest := by
  rcases hmark with htilde | hdollar
  · obtain ⟨rest, hcs⟩ := List.head?_eq_some_iff.1 htilde
    by_cases hhome : rest = [] ∨ rest.head? = some '/'
    · rcases hhome with rfl | hslash
      · exact ⟨.home, [], hcs ▸ .home⟩
      · obtain ⟨rest, rfl⟩ := List.head?_eq_some_iff.1 hslash
        exact ⟨.home, rest, hcs ▸ .belowHome rest⟩
    · have hliteral : ofText raw = .literal (.ofString (trim raw)) := by
        rw [ofText]
        simp only [hcs]
        split <;> simp_all
      -- such a path does not begin with a slash
      rw [resolveText?, hliteral] at h
      obtain ⟨path, hpath, -⟩ := Option.map_eq_some_iff.1 h
      obtain ⟨hpath, habsolute⟩ := Option.filter_eq_some_iff.1 hpath
      obtain rfl := Option.some.inj hpath
      obtain ⟨cs, hslash⟩ := Path.exists_toList_of_isAbsolute habsolute
      rw [hcs] at hslash
      exact absurd (List.cons.inj hslash).1 (by decide)
  · obtain ⟨written, hcs⟩ := List.head?_eq_some_iff.1 hdollar
    rw [hcs]
    exact exists_refers_variable written

/-! ### The rest below a base -/

theorem steps_dropSlashes (cs : List Char) :
    Path.steps ⟨encode (cs.dropWhile (· = '/'))⟩ = Path.steps ⟨encode cs⟩ := by
  induction cs with
  | nil => rfl
  | cons c cs ih =>
    by_cases hc : c = '/'
    · subst hc
      rw [encode_cons, Path.encode_slash, List.singleton_append, Path.steps_cons_slash, ← ih]
      rfl
    · rw [List.dropWhile_cons_of_neg (by simpa using hc)]

/-- A rest is a relative path, with the steps that were written. -/
theorem restOf_cases (cs : List Char) :
    (restOf cs = none ∧ (Path.ofString (.ofList cs)).steps = []) ∨
      ∃ q, restOf cs = some q ∧ q.isAbsolute = false ∧
        q.steps = (Path.ofString (.ofList cs)).steps := by
  have hsteps := steps_dropSlashes cs
  have hfront : (cs.dropWhile (· = '/')).head? ≠ some '/' := by
    intro hslash
    have hnot := List.head?_dropWhile_not (· = '/') cs
    rw [hslash] at hnot
    simp at hnot
  rw [restOf]
  generalize cs.dropWhile (· = '/') = written at hsteps hfront
  cases written with
  | nil =>
    refine .inl ⟨rfl, ?_⟩
    rw [Path.ofString, utf8_ofList, ← hsteps]
    rfl
  | cons c written =>
    refine .inr ⟨_, rfl, Bool.eq_false_iff.2 fun habsolute => ?_, ?_⟩
    · obtain ⟨more, hmore⟩ := Path.exists_toList_of_isAbsolute habsolute
      rw [String.toList_ofList] at hmore
      exact hfront (hmore ▸ rfl)
    · rw [Path.ofString, Path.ofString, utf8_ofList, utf8_ofList, hsteps]

theorem isAbsolute_below (value : Path) (cs : List Char) :
    (below value (restOf cs)).isAbsolute = value.isAbsolute := by
  rcases restOf_cases cs with ⟨hrest, -⟩ | ⟨q, hrest, hrelative, -⟩
  · rw [hrest]
    rfl
  · rw [hrest]
    exact Path.isAbsolute_join hrelative

/-- Below a base come the steps of the rest, whatever slashes it begins with. -/
theorem location_below (h : value.isAbsolute = true) (cs : List Char) :
    (below value (restOf cs)).location = value.location ++ (Path.ofString (.ofList cs)).steps := by
  rcases restOf_cases cs with ⟨hrest, hsteps⟩ | ⟨q, hrest, hrelative, hsteps⟩
  · rw [hrest, hsteps, List.append_nil]
    rfl
  · rw [hrest, ← hsteps]
    exact Path.location_join h hrelative

theorem expand?_entry {rest : Option Path} :
    (base.entry rest).expand? env = some p ↔
      ∃ value, base.path? env = some value ∧ p = below value rest ∧
        (base = .home ∨ env.isPresent p = true) := by
  cases base with
  | home =>
    simp only [Base.entry, expand?, Base.path?, Option.map_eq_some_iff, true_or, and_true]
    exact exists_congr fun value => and_congr_right fun _ => eq_comm
  | named name =>
    simp only [Base.entry, expand?, Base.path?, Option.bind_eq_bind, Option.bind_eq_some_iff,
      Option.map_eq_some_iff]
    constructor
    · rintro ⟨text, htext, hp⟩
      split_ifs at hp with hpresent
      obtain rfl := Option.some.inj hp
      exact ⟨_, ⟨text, htext, rfl⟩, rfl, .inr hpresent⟩
    · rintro ⟨_, ⟨text, htext, rfl⟩, rfl, hpresent⟩
      exact ⟨text, htext, if_pos (by simpa using hpresent)⟩

/-- **An entry stays below its base.** Whatever an entry of any kind resolves to is absolute and in
normal form. One that begins with a tilde or a dollar sign, and resolves, is written like an entry
below the home directory or a variable. An entry that is written so resolves just where the base has
an absolute path and, for a variable, something is present at the path with the rest below. It then
leads to the place of the base followed by the steps of the rest, where dots and slashes do not
count, so that it starts with the base. -/
theorem resolveText?_expands (env : Environment) (raw : String) :
    (∀ entry p, resolve? env entry = some p → p.isAbsolute = true ∧ p.normalize = p) ∧
    (∀ p, resolveText? env raw = some p →
      (trim raw).toList.head? = some '~' ∨ (trim raw).toList.head? = some '$' →
        ∃ base rest, Refers (trim raw).toList base rest) ∧
    ∀ base rest, Refers (trim raw).toList base rest → ∀ p,
      resolveText? env raw = some p ↔
        ∃ value, base.path? env = some value ∧ value.isAbsolute = true ∧
          (base = .home ∨ env.isPresent (below value (restOf rest)) = true) ∧
          p.normalize = p ∧
          p.location = value.normalize.location ++ (Path.ofString (.ofList rest)).steps ∧
          p.startsWith value.normalize = true := by
  refine ⟨fun entry p => isNormal_of_resolve?, fun p => exists_refers,
    fun base rest hrefers p => ?_⟩
  have hplace {value : Path} (h : value.isAbsolute = true) :
      (below value (restOf rest)).normalize.location =
        value.normalize.location ++ (Path.ofString (.ofList rest)).steps := by
    rw [Path.location_normalize_of_isAbsolute ((isAbsolute_below value rest).trans h),
      location_below h, Path.location_normalize_of_isAbsolute h]
  rw [resolveText?, ofText_of_refers hrefers, resolve?, Option.map_eq_some_iff]
  simp only [Option.filter_eq_some_iff, expand?_entry]
  constructor
  · rintro ⟨_, ⟨⟨value, hvalue, rfl, hpresent⟩, habsolute⟩, rfl⟩
    rw [isAbsolute_below] at habsolute
    refine ⟨value, hvalue, habsolute, hpresent, Path.normalize_normalize _, hplace habsolute, ?_⟩
    rw [Path.startsWith, hplace habsolute]
    exact Location.startsWith_iff.2 (List.prefix_append _ _)
  · rintro ⟨value, hvalue, habsolute, hpresent, hnormal, hlocation, -⟩
    refine ⟨_, ⟨⟨value, hvalue, rfl, hpresent⟩, (isAbsolute_below value rest).trans habsolute⟩, ?_⟩
    -- both sides are normal forms of one place
    have hsame := (hplace habsolute).trans hlocation.symm
    calc (below value (restOf rest)).normalize
        = (below value (restOf rest)).normalize.normalize := (Path.normalize_normalize _).symm
      _ = p.normalize := congrArg (fun place => place.canonical.toPath) hsame
      _ = p := hnormal

/-- The rest behind the braces begins with two slashes and a dot, and keeps its double dot. -/
theorem resolveText?_expands_braced :
    let env := Environment.ofTables none [] [("D", "/srv/./data/")] [.ofString "/srv/data/a/../b"]
    let raw := " $\x7bD\x7d//./a/../b"
    let p := Path.ofString "/srv/data/a/../b"
    Refers (trim raw).toList (.named "D") "//./a/../b".toList ∧
      resolveText? env raw = some p ∧ (p.isAbsolute = true ∧ p.normalize = p) ∧
      (∃ base rest, Refers (trim raw).toList base rest) ∧
      p.startsWith (.ofString "/srv/data") = true := by
  intro env raw p
  have hrefers : Refers (trim raw).toList (.named "D") "//./a/../b".toList := by
    have hraw : (trim raw).toList = '$' :: '{' :: (['D'] ++ '\x7d' :: "//./a/../b".toList) := by
      decide +kernel
    rw [hraw]
    exact .braced (by decide) _
  obtain ⟨hnormal, hmarked, hbelow⟩ := resolveText?_expands env raw
  have hresolves : resolveText? env raw = some p :=
    (hbelow _ _ hrefers p).2 ⟨.ofString "/srv/./data/", by decide +kernel, by decide +kernel,
      .inr (by decide +kernel), by decide +kernel, by decide +kernel, by decide +kernel⟩
  refine ⟨hrefers, hresolves, hnormal _ p hresolves, hmarked p hresolves (.inr ?_), ?_⟩
  · decide +kernel
  · decide +kernel

end Entry

end IndexControl
