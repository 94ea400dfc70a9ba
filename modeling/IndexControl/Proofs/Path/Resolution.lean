import IndexControl.Proofs.Path.Nesting
import IndexControl.Proofs.Path.Spelling
import Mathlib.Data.List.Induction

/-!
# Places with their double dots resolved

A place keeps the double dots of its spelling. Resolved, each of them leads back over the name
before it, or nowhere at the root. Steps that continue a place then amount to a walk: so many places
up from it, and from there some names down.

## Main definitions

* `Location.resolve`: a place with its double dots resolved.
* `Location.climb`: the place so many steps up.
* `Walk`, `Walk.along`: what steps amount to.
* `Location.IsRooted`: the root, and then names and double dots.

## Main results

* `Location.resolve_eq_self`: a place without double dots.
* `Location.IsRooted.resolve_append`: where steps that continue a place lead.
* `Location.resolve_escape`: steps can lead from any place to any other one.
-/

namespace IndexControl

namespace Location

/-- One step further. A double dot leads back over the last name, and stays where there is none. -/
def enter (l : Location) : Component → Location
  | .parent => if l.fileName?.isSome then l.dropLast else l
  | c => l ++ [c]

/-- A place with its double dots resolved. -/
def resolve (l : Location) : Location := l.foldl enter []

/-- The place so many steps up. There is nothing above the first step. -/
def climb (l : Location) (up : Nat) : Location := l.take (max 1 (l.length - up))

/-- The root comes first, and then names and double dots. -/
def IsRooted (l : Location) : Prop :=
  l.head? = some .root ∧ ∀ c ∈ l.tail, c ≠ .root ∧ c ≠ .current

end Location

/-- What steps amount to: so many places up from where they begin, and then some names down. -/
structure Walk where
  up : Nat
  down : Location

namespace Walk

/-- One step further. A double dot takes back the last name, and leads up where there is none. -/
def follow (w : Walk) : Component → Walk
  | .parent => if w.down = [] then ⟨w.up + 1, []⟩ else ⟨w.up, w.down.dropLast⟩
  | c => ⟨w.up, w.down ++ [c]⟩

/-- What some steps amount to. -/
def along (steps : Location) : Walk := steps.foldl follow ⟨0, []⟩

variable {c : Component} {steps : Location}

theorem follow_of_ne_parent (w : Walk) (h : c ≠ .parent) : w.follow c = ⟨w.up, w.down ++ [c]⟩ := by
  cases c <;> first | rfl | exact absurd rfl h

theorem along_concat (steps : Location) (c : Component) :
    along (steps ++ [c]) = (along steps).follow c := List.foldl_concat ..

/-- What steps lead down is made of those of them that are no double dots. -/
theorem mem_down (h : c ∈ (along steps).down) : c ∈ steps ∧ c ≠ .parent := by
  induction steps using List.reverseRecOn generalizing c with
  | nil => exact absurd h List.not_mem_nil
  | append_singleton steps last ih =>
    rw [along_concat] at h
    by_cases hlast : last = .parent
    · subst hlast
      rw [follow] at h
      split_ifs at h
      · exact absurd h List.not_mem_nil
      · obtain ⟨hc, hne⟩ := ih ((List.dropLast_sublist _).subset h)
        exact ⟨List.mem_append_left _ hc, hne⟩
    · rw [follow_of_ne_parent _ hlast] at h
      rcases List.mem_append.1 h with h | h
      · obtain ⟨hc, hne⟩ := ih h
        exact ⟨List.mem_append_left _ hc, hne⟩
      · obtain rfl := List.mem_singleton.1 h
        exact ⟨List.mem_append_right _ (List.mem_singleton_self c), hlast⟩

theorem length_down_le (steps : Location) : (along steps).down.length ≤ steps.length := by
  induction steps using List.reverseRecOn with
  | nil => exact Nat.le_refl 0
  | append_singleton steps last ih =>
    rw [along_concat, List.length_append]
    by_cases hlast : last = .parent
    · subst hlast
      rw [follow]
      split_ifs
      · exact Nat.zero_le _
      · simp only [List.length_dropLast]
        omega
    · rw [follow_of_ne_parent _ hlast, List.length_append]
      exact Nat.add_le_add_right ih 1

/-- Double dots alone lead up. -/
theorem along_replicate (n : Nat) : along (List.replicate n .parent) = ⟨n, []⟩ := by
  induction n with
  | zero => rfl
  | succ n ih => rw [List.replicate_succ', along_concat, ih]; rfl

theorem along_replicate_append (n : Nat) (h : .parent ∉ steps) :
    along (List.replicate n .parent ++ steps) = ⟨n, steps⟩ := by
  induction steps using List.reverseRecOn with
  | nil => rw [List.append_nil, along_replicate]
  | append_singleton steps last ih =>
    rw [List.mem_append, not_or] at h
    have hlast : last ≠ .parent := fun heq => h.2 (heq ▸ List.mem_singleton_self last)
    rw [← List.append_assoc, along_concat, ih h.1, follow_of_ne_parent _ hlast]

end Walk

namespace Location

variable {l dir steps : Location} {c : Component}

/-! ### One step further -/

theorem enter_of_ne_parent (l : Location) (h : c ≠ .parent) : l.enter c = l ++ [c] := by
  cases c <;> first | rfl | exact absurd rfl h

theorem enter_parent_concat (l : Location) (bytes : List UInt8) :
    enter (l ++ [.name bytes]) .parent = l := by
  simp [enter, fileName?]

theorem resolve_concat (l : Location) (c : Component) :
    (l ++ [c]).resolve = l.resolve.enter c := List.foldl_concat ..

/-- A place without double dots is resolved. -/
theorem resolve_eq_self (h : .parent ∉ l) : l.resolve = l := by
  induction l using List.reverseRecOn with
  | nil => rfl
  | append_singleton l last ih =>
    rw [List.mem_append, not_or] at h
    have hlast : last ≠ .parent := fun heq => h.2 (heq ▸ List.mem_singleton_self last)
    rw [resolve_concat, ih h.1, enter_of_ne_parent _ hlast]

/-! ### Places from the root -/

theorem IsCanonical.isRooted (h : l.IsCanonical) (habsolute : l.isAbsolute = true) :
    l.IsRooted :=
  ⟨by simpa [isAbsolute] using habsolute, h.1.2⟩

theorem IsRooted.exists_cons (h : l.IsRooted) : ∃ rest, l = .root :: rest :=
  List.head?_eq_some_iff.1 h.1

theorem IsRooted.ne_nil (h : l.IsRooted) : l ≠ [] := by
  rintro rfl
  exact absurd h.1 (by simp)

theorem IsRooted.append (h : l.IsRooted) (hsteps : ∀ c ∈ steps, c ≠ .root ∧ c ≠ .current) :
    IsRooted (l ++ steps) := by
  obtain ⟨rest, rfl⟩ := h.exists_cons
  exact ⟨rfl, List.forall_mem_append.2 ⟨h.2, hsteps⟩⟩

theorem IsRooted.of_append (h : IsRooted (l ++ steps)) (hl : l ≠ []) :
    l.IsRooted ∧ ∀ c ∈ steps, c ≠ .root ∧ c ≠ .current := by
  cases l with
  | nil => exact absurd rfl hl
  | cons first rest =>
    obtain ⟨hrest, hsteps⟩ := List.forall_mem_append.1 h.2
    exact ⟨⟨h.1, hrest⟩, hsteps⟩

theorem IsRooted.canonical (h : l.IsRooted) : l.canonical = l := by
  have hkept : l.filter (· ≠ .current) = l := by
    refine List.filter_eq_self.2 fun c hc => ?_
    obtain ⟨rest, rfl⟩ := h.exists_cons
    rcases List.mem_cons.1 hc with rfl | hc
    · rfl
    · exact decide_eq_true (h.2 c hc).2
  rw [canonical_of_filter_ne_nil (by rw [hkept]; exact h.ne_nil), hkept]

/-- The spelling of a place from the root is absolute. -/
theorem IsRooted.isAbsolute_toPath (h : l.IsRooted) : l.toPath.isAbsolute = true := by
  obtain ⟨rest, rfl⟩ := h.exists_cons
  cases rest with
  | nil => rfl
  | cons c rest => rfl

/-- No two slashes stand side by side in the plainest spelling of steps from the root. -/
theorem toPath_ne_of_isRooted (h : l.IsSpelled) (hrooted : l.IsRooted) (front back : List UInt8) :
    l.toPath.bytes ≠ front ++ Path.slash :: Path.slash :: back := by
  intro heq
  obtain ⟨rest, rfl⟩ := hrooted.exists_cons
  by_cases hnil : rest = []
  · subst hnil
    have hlength := congrArg List.length heq
    simp only [toPath, List.length_append, List.length_cons, List.length_nil] at hlength
    omega
  · have hsplit := split_toPath h (List.cons_ne_nil _ _) (by simpa using hnil)
    rw [heq, Path.split_append, Path.split_slash_cons] at hsplit
    -- the piece between the two slashes spells no step
    have hempty : [] ∈ rest.map Component.toPiece := by
      cases hfront : Path.split front with
      | nil => exact absurd hfront (Path.split_ne_nil front)
      | cons piece pieces =>
        rw [hfront, List.map_cons, List.cons_append, List.cons.injEq] at hsplit
        rw [← hsplit.2]
        exact List.mem_append_right _ List.mem_cons_self
    obtain ⟨c, hc, hpiece⟩ := List.mem_map.1 hempty
    exact Component.toPiece_ne_nil (h.1 c (List.mem_cons_of_mem _ hc)) (h.2 c hc).1 hpiece

/-- An absolute path leads from the root. -/
theorem isRooted_location {p : Path} (h : p.isAbsolute = true) : p.location.IsRooted :=
  ⟨Path.head?_location h, p.location_isSpelled.2⟩

/-- A place from the root has one spelling only. -/
theorem IsSpelled.canonical_of_isAbsolute (h : l.IsSpelled)
    (habsolute : l.canonical.isAbsolute = true) : l.canonical = l := by
  have hmem : .root ∈ l.canonical := List.mem_of_head? (by simpa [isAbsolute] using habsolute)
  have hne : l.filter (· ≠ .current) ≠ [] := by
    intro hnil
    rw [canonical_of_filter_eq_nil hnil] at hmem
    simp at hmem
  rw [canonical_of_filter_ne_nil hne] at hmem
  refine IsRooted.canonical ⟨?_, h.2⟩
  cases l with
  | nil => exact absurd rfl hne
  | cons first rest =>
    rcases List.mem_cons.1 (List.mem_filter.1 hmem).1 with rfl | hrest
    · rfl
    · exact absurd rfl (h.2 _ hrest).1

/-- A step that is no double dot, after the first one, is a name. -/
theorem IsRooted.exists_name (h : l.IsRooted) (hc : c ∈ l.tail) (hne : c ≠ .parent) :
    ∃ bytes, c = .name bytes := by
  obtain ⟨hroot, hcurrent⟩ := h.2 c hc
  cases c with
  | root => exact absurd rfl hroot
  | current => exact absurd rfl hcurrent
  | parent => exact absurd rfl hne
  | name bytes => exact ⟨bytes, rfl⟩

@[simp]
theorem climb_zero (h : l ≠ []) : l.climb 0 = l := by
  have hpos : 1 ≤ l.length := List.length_pos_iff.2 h
  rw [climb, Nat.sub_zero, Nat.max_eq_right hpos, List.take_length]

theorem isRooted_climb (h : l.IsRooted) (up : Nat) : (l.climb up).IsRooted := by
  obtain ⟨rest, rfl⟩ := h.exists_cons
  obtain ⟨n, hn⟩ : ∃ n, max 1 ((Component.root :: rest).length - up) = n + 1 :=
    Nat.exists_eq_add_of_le' (Nat.le_max_left 1 _)
  rw [climb, hn, List.take_succ_cons]
  exact ⟨rfl, fun c hc => h.2 c (List.mem_of_mem_take hc)⟩

/-- A double dot leads one step further up. -/
theorem IsRooted.enter_climb (h : l.IsRooted) (hplain : .parent ∉ l) (up : Nat) :
    (l.climb up).enter .parent = l.climb (up + 1) := by
  obtain ⟨rest, rfl⟩ := h.exists_cons
  simp only [climb, List.length_cons]
  by_cases hup : rest.length ≤ up
  · have hlast : max 1 (rest.length + 1 - up) = 1 := by omega
    have hnext : max 1 (rest.length + 1 - (up + 1)) = 1 := by omega
    rw [hlast, hnext]
    rfl
  · -- the last of the steps that are left is a name
    obtain ⟨n, hn⟩ : ∃ n, rest.length - up = n + 1 := ⟨rest.length - up - 1, by omega⟩
    have hlast : max 1 (rest.length + 1 - up) = n + 2 := by omega
    have hnext : max 1 (rest.length + 1 - (up + 1)) = n + 1 := by omega
    have hlt : n < rest.length := by omega
    have hne : rest[n] ≠ .parent := fun heq =>
      hplain (List.mem_cons_of_mem _ (heq ▸ List.getElem_mem hlt))
    obtain ⟨bytes, hbytes⟩ := h.exists_name (List.getElem_mem hlt) hne
    rw [hlast, hnext, List.take_succ_cons, List.take_succ_cons, List.take_add_one,
      List.getElem?_eq_getElem hlt, hbytes, Option.toList_some, ← List.cons_append]
    exact enter_parent_concat ..

/-- Steps that continue a place without double dots lead where the walk along them leads. -/
theorem IsRooted.resolve_append (hdir : dir.IsRooted) (hplain : .parent ∉ dir)
    (hsteps : ∀ c ∈ steps, c ≠ .root ∧ c ≠ .current) :
    (dir ++ steps).resolve = dir.climb (Walk.along steps).up ++ (Walk.along steps).down := by
  induction steps using List.reverseRecOn with
  | nil =>
    rw [List.append_nil, resolve_eq_self hplain]
    exact ((List.append_nil _).trans (climb_zero hdir.ne_nil)).symm
  | append_singleton steps last ih =>
    obtain ⟨hearlier, hlast⟩ := List.forall_mem_append.1 hsteps
    rw [← List.append_assoc, resolve_concat, ih hearlier, Walk.along_concat]
    by_cases hparent : last = .parent
    · subst hparent
      rw [Walk.follow]
      split_ifs with hdown
      · rw [hdown, List.append_nil, List.append_nil]
        exact hdir.enter_climb hplain _
      · -- the last name that the walk has led down is taken back
        obtain ⟨down, name, hname⟩ := (List.eq_nil_or_concat' _).resolve_left hdown
        have hmem : name ∈ (Walk.along steps).down := by
          rw [hname]
          exact List.mem_append_right _ (List.mem_singleton_self name)
        obtain ⟨hstep, hne⟩ := Walk.mem_down hmem
        obtain ⟨hroot, hcurrent⟩ := hearlier name hstep
        cases name with
        | name bytes =>
          rw [hname, List.dropLast_concat, ← List.append_assoc]
          exact enter_parent_concat ..
        | root => exact absurd rfl hroot
        | current => exact absurd rfl hcurrent
        | parent => exact absurd rfl hne
    · rw [enter_of_ne_parent _ hparent, Walk.follow_of_ne_parent _ hparent, List.append_assoc]

/-- Steps can lead from any place without double dots to any other one. -/
theorem resolve_escape (hdir : dir.IsCanonical) (habsolute : dir.isAbsolute = true)
    (hplain : .parent ∉ dir) (hl : l.IsCanonical) (hl' : l.isAbsolute = true)
    (hlplain : .parent ∉ l) :
    ∃ steps, IsCanonical (dir ++ steps) ∧ isAbsolute (dir ++ steps) = true ∧
      resolve (dir ++ steps) = l := by
  have hrooted := hdir.isRooted habsolute
  obtain ⟨names, rfl⟩ := (hl.isRooted hl').exists_cons
  have hnames : ∀ c ∈ names, c ≠ .root ∧ c ≠ .current := (hl.isRooted hl').2
  have hnone : .parent ∉ names := fun h => hlplain (List.mem_cons_of_mem _ h)
  let steps := List.replicate dir.length Component.parent ++ names
  have hsteps : ∀ c ∈ steps, c ≠ .root ∧ c ≠ .current := by
    refine List.forall_mem_append.2 ⟨fun c hc => ?_, hnames⟩
    obtain rfl := List.eq_of_mem_replicate hc
    exact ⟨Component.noConfusion, Component.noConfusion⟩
  have hwalk : Walk.along steps = ⟨dir.length, names⟩ := Walk.along_replicate_append _ hnone
  have hlonger : IsRooted (dir ++ steps) := hrooted.append hsteps
  refine ⟨steps, ⟨⟨?_, ?_⟩, ?_⟩, decide_eq_true hlonger.1, ?_⟩
  · refine List.forall_mem_append.2 ⟨hdir.1.1, List.forall_mem_append.2 ⟨fun c hc => ?_, ?_⟩⟩
    · obtain rfl := List.eq_of_mem_replicate hc
      trivial
    · exact fun c hc => hl.1.1 c (List.mem_cons_of_mem _ hc)
  · exact hlonger.2
  · exact hlonger.canonical
  · rw [hrooted.resolve_append hplain hsteps, hwalk, climb, Nat.sub_self]
    obtain ⟨rest, rfl⟩ := hrooted.exists_cons
    rfl

end Location

end IndexControl
