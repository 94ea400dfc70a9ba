import IndexControl.Path.Nesting
import Mathlib.Data.List.Basic

/-!
# The order in which places lie

A place lies below another when its steps continue the other's, so that the places above one place
are linearly ordered. In the order of paths whatever lies below a place follows it without a gap.

## Main results

* `Location.startsWith_iff`, `Location.isBelow_iff`: nesting as a prefix relation.
* `Location.isBelow_trans`, `Location.isBelow_total`: the order of nesting.
* `Location.mem_ancestors_iff`, `Location.pairwise_ancestors`: what a walk to the root comes past,
  and in which order.
* `Location.isChildOf_iff`, `Location.startsWith_of_isChildOf`: what lies directly in a place.
* `Location.startsWith_of_inScope`: what a root covers.
* `Location.startsWith_of_le`: a place between another and something below that lies below it too.
* `Location.takeWhile_startsWith`: a scan of sorted places from one of them on finds all below it.
-/

namespace IndexControl

/-- The proper initial segments are the prefixes that are not the whole list. -/
theorem mem_properInits_iff {α : Type} {l m : List α} :
    m ∈ properInits l ↔ m <+: l ∧ m ≠ l := by
  induction l generalizing m with
  | nil => cases m <;> simp [properInits]
  | cons a l ih =>
    cases m with
    | nil => simp [properInits]
    | cons b m =>
      simp only [properInits, List.mem_cons, List.mem_map, List.cons.injEq, ih,
        List.cons_prefix_cons, reduceCtorEq, false_or, ne_eq, not_and]
      constructor
      · rintro ⟨m', ⟨hpre, hne⟩, rfl, rfl⟩
        exact ⟨⟨rfl, hpre⟩, fun _ => hne⟩
      · rintro ⟨⟨rfl, hpre⟩, hne⟩
        exact ⟨m, ⟨hpre, hne rfl⟩, rfl, rfl⟩

theorem properInits_concat {α : Type} (l : List α) (a : α) :
    properInits (l ++ [a]) = properInits l ++ [l] := by
  induction l with
  | nil => rfl
  | cons b l ih => simp [properInits, ih]

/-- Of the proper initial segments each one begins the next. -/
theorem pairwise_properInits {α : Type} (l : List α) : (properInits l).Pairwise (· <+: ·) := by
  induction l with
  | nil => exact .nil
  | cons a l ih =>
    refine List.pairwise_cons.2 ⟨fun _ _ => List.nil_prefix, List.pairwise_map.2 ?_⟩
    exact ih.imp fun hpre => List.cons_prefix_cons.2 ⟨rfl, hpre⟩

namespace Location

variable {l m n : Location}

/-! ### Nesting as a prefix relation -/

theorem startsWith_iff : l.startsWith m = true ↔ m <+: l := by
  rw [startsWith, List.isPrefixOf_iff_prefix]

theorem isBelow_iff : l.isBelow m = true ↔ m <+: l ∧ l ≠ m := by
  rw [isBelow, Bool.and_eq_true, decide_eq_true_iff, startsWith_iff, and_comm]

theorem startsWith_of_isBelow (h : l.isBelow m = true) : l.startsWith m = true :=
  startsWith_iff.2 (isBelow_iff.1 h).1

@[simp]
theorem startsWith_self (l : Location) : l.startsWith l = true :=
  startsWith_iff.2 (List.prefix_refl l)

@[simp]
theorem isBelow_self (l : Location) : l.isBelow l = false := by
  simp [isBelow]

/-- What starts with a place is that place or lies below it. -/
theorem startsWith_iff_eq_or_isBelow : l.startsWith m = true ↔ l = m ∨ l.isBelow m = true := by
  rw [startsWith_iff, isBelow_iff]
  constructor
  · intro h
    by_cases heq : l = m
    · exact .inl heq
    · exact .inr ⟨h, heq⟩
  · rintro (rfl | h)
    · exact List.prefix_refl l
    · exact h.1

theorem startsWith_trans (hlm : l.startsWith m = true) (hmn : m.startsWith n = true) :
    l.startsWith n = true :=
  startsWith_iff.2 ((startsWith_iff.1 hmn).trans (startsWith_iff.1 hlm))

/-- Below something that starts with a place is below the place. -/
theorem isBelow_of_isBelow_of_startsWith (hlm : l.isBelow m = true)
    (hmn : m.startsWith n = true) : l.isBelow n = true := by
  obtain ⟨hpre, hne⟩ := isBelow_iff.1 hlm
  have hpre' := startsWith_iff.1 hmn
  refine isBelow_iff.2 ⟨hpre'.trans hpre, ?_⟩
  rintro rfl
  exact hne (hpre'.eq_of_length (Nat.le_antisymm hpre'.length_le hpre.length_le))

theorem isBelow_trans (hlm : l.isBelow m = true) (hmn : m.isBelow n = true) :
    l.isBelow n = true :=
  isBelow_of_isBelow_of_startsWith hlm (startsWith_of_isBelow hmn)

/-- Two places above one place are the same or one above the other. -/
theorem isBelow_total (hm : l.startsWith m = true) (hn : l.startsWith n = true) :
    m = n ∨ m.isBelow n = true ∨ n.isBelow m = true := by
  rcases List.prefix_or_prefix_of_prefix (startsWith_iff.1 hm) (startsWith_iff.1 hn) with h | h
  · rcases startsWith_iff_eq_or_isBelow.1 (startsWith_iff.2 h) with heq | hbelow
    · exact .inl heq.symm
    · exact .inr (.inr hbelow)
  · rcases startsWith_iff_eq_or_isBelow.1 (startsWith_iff.2 h) with heq | hbelow
    · exact .inl heq
    · exact .inr (.inl hbelow)

/-! ### Walking up -/

/-- Above a relative place are all its proper initial segments. -/
theorem ancestors_of_head?_ne (h : l.head? ≠ some .root) :
    l.ancestors = (properInits l).reverse := by
  match l with
  | [] => rfl
  | .root :: rest => exact absurd rfl h
  | .current :: rest => rfl
  | .parent :: rest => rfl
  | .name bytes :: rest => rfl

/-- The places above a place are those it lies below, the empty path above an absolute one
excepted. -/
theorem mem_ancestors_iff :
    m ∈ l.ancestors ↔ l.isBelow m = true ∧ (m = [] → l.head? ≠ some .root) := by
  by_cases hroot : l.head? = some .root
  · obtain ⟨rest, rfl⟩ := List.head?_eq_some_iff.1 hroot
    simp only [ancestors, List.mem_reverse, List.mem_map, mem_properInits_iff, isBelow_iff]
    constructor
    · rintro ⟨init, ⟨hpre, hne⟩, rfl⟩
      exact ⟨⟨List.cons_prefix_cons.2 ⟨rfl, hpre⟩, by simpa using hne.symm⟩, by simp⟩
    · rintro ⟨⟨hpre, hne⟩, hempty⟩
      cases m with
      | nil => simp at hempty
      | cons c init =>
        obtain ⟨rfl, hinit⟩ := List.cons_prefix_cons.1 hpre
        exact ⟨init, ⟨hinit, by simpa [eq_comm] using hne⟩, rfl⟩
  · rw [ancestors_of_head?_ne hroot, List.mem_reverse, mem_properInits_iff, isBelow_iff]
    exact ⟨fun h => ⟨⟨h.1, h.2.symm⟩, fun _ => hroot⟩, fun h => ⟨h.1.1, h.1.2.symm⟩⟩

/-- A walk up from a place comes past every place with steps that it lies below. -/
theorem mem_ancestors_of_isBelow (h : l.isBelow m = true) (hne : m ≠ []) : m ∈ l.ancestors :=
  mem_ancestors_iff.2 ⟨h, fun hempty => absurd hempty hne⟩

theorem isBelow_of_mem_ancestors (h : m ∈ l.ancestors) : l.isBelow m = true :=
  (mem_ancestors_iff.1 h).1

/-- A walk up comes past the nearer of two places first. -/
theorem pairwise_ancestors (l : Location) :
    l.ancestors.Pairwise fun near far => near.startsWith far = true := by
  by_cases hroot : l.head? = some .root
  · obtain ⟨rest, rfl⟩ := List.head?_eq_some_iff.1 hroot
    rw [ancestors, List.pairwise_reverse, List.pairwise_map]
    exact (pairwise_properInits rest).imp fun hpre =>
      startsWith_iff.2 (List.cons_prefix_cons.2 ⟨rfl, hpre⟩)
  · rw [ancestors_of_head?_ne hroot, List.pairwise_reverse]
    exact (pairwise_properInits l).imp startsWith_iff.2

/-! ### Directly above -/

theorem parent?_concat (hl : l ≠ []) (c : Component) : parent? (l ++ [c]) = some l := by
  cases l with
  | nil => exact absurd rfl hl
  | cons first rest =>
    have hinits := properInits_concat (first :: rest) c
    rw [List.cons_append] at hinits
    cases first with
    | root => simp [parent?, ancestors, properInits_concat]
    | _ => simp [parent?, ancestors, hinits]

/-- What lies directly in a place is one step further. -/
theorem isChildOf_iff (hm : m ≠ []) : l.isChildOf m = true ↔ ∃ c, l = m ++ [c] := by
  rw [isChildOf, decide_eq_true_iff]
  constructor
  · intro h
    have hbelow := isBelow_iff.1 (isBelow_of_mem_ancestors (List.mem_of_mem_head? h))
    rcases List.eq_nil_or_concat' l with rfl | ⟨init, c, rfl⟩
    · exact absurd (List.prefix_nil.1 hbelow.1) hm
    · rcases List.prefix_concat_iff.1 hbelow.1 with heq | hpre
      · exact absurd heq.symm hbelow.2
      · have hinit : init ≠ [] := by
          rintro rfl
          exact hm (List.prefix_nil.1 hpre)
        rw [parent?_concat hinit] at h
        exact ⟨c, by rw [Option.some.inj h]⟩
  · rintro ⟨c, rfl⟩
    exact parent?_concat hm c

theorem isBelow_of_isChildOf (h : l.isChildOf m = true) : l.isBelow m = true :=
  isBelow_of_mem_ancestors (List.mem_of_mem_head? (of_decide_eq_true h))

/-- No place lies between a place and what lies directly in it. -/
theorem startsWith_of_isChildOf (hm : m ≠ []) (hchild : l.isChildOf m = true)
    (hbelow : l.isBelow n = true) : m.startsWith n = true := by
  obtain ⟨c, rfl⟩ := (isChildOf_iff hm).1 hchild
  obtain ⟨hpre, hne⟩ := isBelow_iff.1 hbelow
  exact startsWith_iff.2 ((List.prefix_concat_iff.1 hpre).resolve_left hne.symm)

/-! ### The scope of a root -/

/-- A root covers only what starts with its place. -/
theorem startsWith_of_inScope {recursive : Bool} (h : l.inScope m recursive = true) :
    l.startsWith m = true := by
  rw [inScope] at h
  split at h
  · exact h
  · rw [Bool.or_eq_true, decide_eq_true_iff] at h
    rcases h with rfl | hchild
    · exact startsWith_self l
    · exact startsWith_of_isBelow (isBelow_of_isChildOf hchild)

/-- Below its place a plain root covers what lies directly in it. -/
theorem inScope_of_isBelow (h : l.isBelow m = true) (recursive : Bool) :
    l.inScope m recursive = (recursive || l.isChildOf m) := by
  cases recursive with
  | true => exact startsWith_of_isBelow h
  | false => simp [inScope, (isBelow_iff.1 h).2]

/-! ### Nesting in the order of paths -/

theorem not_lt_of_prefix (h : m <+: l) : compare l m ≠ .lt := by
  induction m generalizing l with
  | nil => cases l <;> simp
  | cons c m ih =>
    obtain ⟨rest, rfl⟩ := h
    have hrest := ih (List.prefix_append m rest)
    simpa [List.compare_eq_compareLex, List.compareLex_cons_cons, Std.ReflOrd.compare_self]
      using hrest

/-- A place between another one and something below that lies below it too. -/
theorem startsWith_of_le (hlo : compare l m ≠ .lt) (hhi : compare l n = .lt)
    (hn : n.startsWith m = true) : l.startsWith m = true := by
  rw [startsWith_iff] at hn ⊢
  induction m generalizing l n with
  | nil => exact List.nil_prefix
  | cons c m ih =>
    obtain ⟨rest, rfl⟩ := hn
    cases l with
    | nil => simp at hlo
    | cons d l =>
      rw [List.compare_eq_compareLex, List.compareLex_cons_cons] at hlo
      rw [List.compare_eq_compareLex, List.cons_append, List.compareLex_cons_cons] at hhi
      cases hd : compare d c with
      | lt => simp [hd] at hlo
      | gt => simp [hd] at hhi
      | eq =>
        obtain rfl := Std.LawfulEqCmp.eq_of_compare hd
        simp only [hd, Ordering.then] at hlo hhi
        exact List.cons_prefix_cons.2 ⟨rfl, ih hlo hhi ⟨rest, rfl⟩⟩

private theorem takeWhile_startsWith_of_le {places : List Location}
    (hsorted : places.Pairwise fun a b => compare a b = .lt)
    (hle : ∀ l ∈ places, compare l m ≠ .lt) :
    places.takeWhile (·.startsWith m) = places.filter (·.startsWith m) := by
  induction places with
  | nil => rfl
  | cons l places ih =>
    obtain ⟨hhd, htl⟩ := List.pairwise_cons.1 hsorted
    have hle' : ∀ l' ∈ places, compare l' m ≠ .lt := fun l' h => hle l' (List.mem_cons_of_mem l h)
    by_cases hl : l.startsWith m = true
    · simp only [List.takeWhile_cons, List.filter_cons, hl, ↓reduceIte, ih htl hle']
    · have hout : ∀ l' ∈ places, ¬ l'.startsWith m = true := fun l' h hl' =>
        hl (startsWith_of_le (hle l List.mem_cons_self) (hhd l' h) hl')
      simp only [List.takeWhile_cons, List.filter_cons, hl, Bool.false_eq_true, ↓reduceIte,
        List.filter_eq_nil_iff.2 hout]

/-- A scan of sorted places that begins at a place and ends before the first one that does not
start with it comes past all that do. -/
theorem takeWhile_startsWith {places : List Location}
    (hsorted : places.Pairwise fun a b => compare a b = .lt) (m : Location) :
    (places.dropWhile fun other => compare other m == .lt).takeWhile (·.startsWith m) =
      places.filter (·.startsWith m) := by
  induction places with
  | nil => rfl
  | cons l places ih =>
    obtain ⟨hhd, htl⟩ := List.pairwise_cons.1 hsorted
    by_cases hlt : compare l m = .lt
    · have hout : ¬ l.startsWith m = true := fun hl => not_lt_of_prefix (startsWith_iff.1 hl) hlt
      rw [List.dropWhile_cons_of_pos (by simpa using hlt), ih htl]
      simp only [List.filter_cons, hout, Bool.false_eq_true, ↓reduceIte]
    · rw [List.dropWhile_cons_of_neg (by simpa using hlt)]
      refine takeWhile_startsWith_of_le hsorted fun l' hl' => ?_
      rcases List.mem_cons.1 hl' with rfl | hmem
      · exact hlt
      · exact fun hlt' => hlt (Std.TransCmp.lt_trans (hhd l' hmem) hlt')

end Location

end IndexControl
