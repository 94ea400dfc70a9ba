import IndexControl.Proofs.Path.Resolution

/-!
# Paths below paths

A relative path that is put below another one continues it: the pieces of both stand one after the
other, and no more than idle ones come in between. So the steps of an absolute path stay in front,
and what follows are the steps of the relative one, in which no dot counts any more. The normal form
of an absolute path is absolute, and names the place of the path.

## Main definitions

* `Component.isStep`, `Path.steps`: the steps of a path behind its front.

## Main results

* `Path.location_of_slash_notMem`, `Path.steps_of_slash_notMem`: a path of one piece.
* `Path.exists_split_join`: the pieces of a path below another one.
* `Path.steps_join`, `Path.location_join`: the steps of a path below another one.
* `Path.normalize_normalize`, `Path.isAbsolute_normalize`, `Path.location_normalize_of_isAbsolute`:
  the normal form of a path.
-/

namespace IndexControl

/-- Whether a component leads on from where a path begins: the root and a dot do not. -/
def Component.isStep : Component → Bool
  | root | current => false
  | parent | name _ => true

namespace Path

variable {p q : Path}

/-- The steps of a path behind its front. Neither the root nor a dot counts. -/
def steps (p : Path) : Location := p.location.filter Component.isStep

/-! ### Steps and pieces -/

/-- Behind the first step of a spelling there is neither a root nor a dot. -/
theorem filter_isStep_of_plain {l : Location} (h : ∀ c ∈ l, c ≠ .root ∧ c ≠ .current) :
    l.filter Component.isStep = l := by
  refine List.filter_eq_self.2 fun c hc => ?_
  obtain ⟨hroot, hcurrent⟩ := h c hc
  cases c with
  | root => exact absurd rfl hroot
  | current => exact absurd rfl hcurrent
  | parent => rfl
  | name bytes => rfl

/-- The steps of an absolute path are those behind the root. -/
theorem location_of_isAbsolute (h : p.isAbsolute = true) : p.location = .root :: p.steps := by
  obtain ⟨rest, hrest⟩ := (Location.isRooted_location h).exists_cons
  have hplain : ∀ c ∈ rest, c ≠ .root ∧ c ≠ .current := by
    have htail := p.location_isSpelled.2
    rwa [hrest] at htail
  rw [steps, hrest, List.filter_cons_of_neg (by simp [Component.isStep]),
    filter_isStep_of_plain hplain]

/-- The steps of a path are what its pieces spell, idle ones at the front left out as well. -/
theorem steps_eq_componentsOf (p : Path) : p.steps = componentsOf (split p.bytes) := by
  have hplain := p.location_isSpelled.2
  match hsplit : split p.bytes with
  | [] => exact absurd hsplit (split_ne_nil p.bytes)
  | [[]] => rw [steps, location, hsplit]; rfl
  | [] :: piece :: rest =>
    have hroot := location_of_split_root hsplit (List.cons_ne_nil piece rest)
    rw [hroot, List.tail_cons] at hplain
    rw [steps, hroot, List.filter_cons_of_neg (by simp [Component.isStep]),
      filter_isStep_of_plain hplain]
    rfl
  | (b :: front) :: rest =>
    have hfront := location_of_split hsplit (List.cons_ne_nil b front)
    rw [hfront, List.tail_cons] at hplain
    rw [steps, hfront, ← List.singleton_append (l := rest), componentsOf_append]
    by_cases hdot : b :: front = [dot]
    · have hcurrent : Component.ofPiece [dot] = .current := rfl
      rw [hdot, hcurrent, List.filter_cons_of_neg (by simp [Component.isStep]),
        filter_isStep_of_plain hplain, componentsOf_singleton_of_isIdle (by simp [isIdle])]
      rfl
    · have hstep : (Component.ofPiece (b :: front)).isStep = true := by
        rw [Component.ofPiece, if_neg hdot]
        split <;> rfl
      rw [List.filter_cons_of_pos hstep, filter_isStep_of_plain hplain,
        componentsOf_singleton (by simp [isIdle, hdot])]
      rfl

/-- Slashes at the front do not change the steps. -/
theorem steps_cons_slash (bytes : List UInt8) : steps ⟨slash :: bytes⟩ = steps ⟨bytes⟩ := by
  rw [steps_eq_componentsOf, steps_eq_componentsOf, split_slash_cons]
  rfl

/-! ### Paths of one piece -/

/-- A path without slashes is relative. -/
theorem isAbsolute_of_slash_notMem (h : slash ∉ p.bytes) : p.isAbsolute = false := by
  rw [isAbsolute, decide_eq_false_iff_not]
  exact fun hhead => h (List.mem_of_mem_head? hhead)

theorem location_of_slash_notMem (hne : p.bytes ≠ []) (h : slash ∉ p.bytes) :
    p.location = [.ofPiece p.bytes] :=
  location_of_split (split_of_slash_notMem h) hne

theorem steps_of_slash_notMem (h : slash ∉ p.bytes) : p.steps = componentsOf [p.bytes] := by
  rw [steps_eq_componentsOf, split_of_slash_notMem h]

/-! ### Putting a path below another one -/

/-- The pieces of a relative path below another one are those of both, whether the other one is
spelled with a slash behind it or not. -/
theorem exists_split_join (hp : p.bytes ≠ []) (hq : q.isAbsolute = false) :
    ∃ pieces idle, (∀ piece ∈ idle, isIdle piece = true) ∧
      split p.bytes = pieces ++ idle ∧ split (p.join q).bytes = pieces ++ split q.bytes := by
  rw [join, if_neg (by simp [hq])]
  by_cases hlast : p.bytes.getLast? = some slash
  · obtain ⟨front, hfront⟩ := List.getLast?_eq_some_iff.1 hlast
    refine ⟨split front, [[]], by simp [isIdle], ?_, ?_⟩
    · rw [hfront, split_append, split_nil]
    · rw [if_pos (by simp [hlast]), hfront, List.append_assoc, List.singleton_append, split_append]
  · refine ⟨split p.bytes, [], by simp, by simp, ?_⟩
    rw [if_neg (by simp [hlast, hp]), split_append]

theorem isAbsolute_join (hq : q.isAbsolute = false) : (p.join q).isAbsolute = p.isAbsolute := by
  rw [join, if_neg (by simp [hq])]
  cases hp : p.bytes with
  | nil =>
    rw [isAbsolute] at hq
    simp [isAbsolute, hp, hq]
  | cons b bytes => split <;> simp [isAbsolute, hp]

theorem steps_join (hp : p.bytes ≠ []) (hq : q.isAbsolute = false) :
    (p.join q).steps = p.steps ++ q.steps := by
  obtain ⟨pieces, idle, hidle, hsplit, hjoin⟩ := exists_split_join hp hq
  have hnone : componentsOf idle = [] := by
    rw [componentsOf, List.filter_eq_nil_iff.2 fun piece hpiece => by simp [hidle piece hpiece]]
    rfl
  rw [steps_eq_componentsOf, steps_eq_componentsOf, steps_eq_componentsOf, hjoin, hsplit,
    componentsOf_append, componentsOf_append, hnone, List.append_nil]

/-- A relative path continues the absolute one that it is put below. -/
theorem location_join (hp : p.isAbsolute = true) (hq : q.isAbsolute = false) :
    (p.join q).location = p.location ++ q.steps := by
  have hne : p.bytes ≠ [] := by
    intro hnil
    simp [isAbsolute, hnil] at hp
  rw [location_of_isAbsolute ((isAbsolute_join hq).trans hp), location_of_isAbsolute hp,
    steps_join hne hq, List.cons_append]

/-! ### Normal forms -/

theorem normalize_normalize (p : Path) : p.normalize.normalize = p.normalize :=
  Location.normalize_toPath (Location.isCanonical_canonical p.location_isSpelled)

theorem location_normalize_of_isAbsolute (h : p.isAbsolute = true) :
    p.normalize.location = p.location := by
  rw [location_normalize, (Location.isRooted_location h).canonical]

/-- The normal form of an absolute path spells all of its steps. -/
theorem normalize_of_isAbsolute (h : p.isAbsolute = true) :
    p.normalize = p.location.toPath := by
  rw [normalize, (Location.isRooted_location h).canonical]

theorem isAbsolute_normalize (h : p.isAbsolute = true) : p.normalize.isAbsolute = true := by
  rw [normalize_of_isAbsolute h]
  exact (Location.isRooted_location h).isAbsolute_toPath

end Path

end IndexControl
