import IndexControl.Proofs.Path.Nesting
import Mathlib.Data.List.Induction

/-!
# Spelling the steps of a path

The steps of any spelling can be spelled again, and the plainest spelling of steps names just
these steps. A walk up the spelling of a path comes past the places above the place it names.

## Main definitions

* `Component.IsSpellable`, `Location.IsSpelled`: the steps that a spelling can name.
* `Location.IsCanonical`: steps without dots, of which there is at least one.

## Main results

* `Path.location_isSpelled`: every spelling names such steps.
* `Location.location_toPath`: the plainest spelling of such steps names them.
* `Location.normalize_toPath`: the plainest spelling of canonical steps is its own normal form.
* `Path.location_ancestors`, `Path.prefix_of_mem_ancestors`: walking up in a spelling is walking up
  in what it names, along the fronts of the spelling.
-/

namespace IndexControl

/-! ### Steps that have a spelling -/

/-- A component that a piece between slashes can spell. -/
def Component.IsSpellable : Component → Prop
  | .name bytes => bytes ≠ [] ∧ Path.slash ∉ bytes ∧ bytes ≠ [Path.dot] ∧
      bytes ≠ [Path.dot, Path.dot]
  | _ => True

/-- Steps that a spelling can name: the root and the dot stand at the front only. -/
def Location.IsSpelled (l : Location) : Prop :=
  (∀ c ∈ l, c.IsSpellable) ∧ ∀ c ∈ l.tail, c ≠ .root ∧ c ≠ .current

/-- The steps of a normal form. -/
def Location.IsCanonical (l : Location) : Prop := l.IsSpelled ∧ l.canonical = l

namespace Path

/-! ### Splitting at slashes -/

theorem slash_notMem_of_mem_split {bs : List UInt8} {piece : List UInt8}
    (h : piece ∈ split bs) : slash ∉ piece := by
  induction bs generalizing piece with
  | nil =>
    obtain rfl : piece = [] := by simpa using h
    simp
  | cons b rest ih =>
    rw [split] at h
    split at h
    · rcases List.mem_cons.1 h with rfl | h
      · simp
      · exact ih h
    · next hb =>
      split at h
      · next hnil => exact absurd hnil (split_ne_nil rest)
      · next first pieces hsplit =>
        rcases List.mem_cons.1 h with rfl | h
        · have hfirst := ih (hsplit ▸ List.mem_cons_self)
          simpa [Ne.symm hb] using hfirst
        · exact ih (hsplit ▸ List.mem_cons_of_mem _ h)

theorem split_of_slash_notMem {piece : List UInt8} (h : slash ∉ piece) :
    split piece = [piece] := by
  induction piece with
  | nil => rfl
  | cons b rest ih =>
    obtain ⟨hb, hrest⟩ : slash ≠ b ∧ slash ∉ rest := by simpa using h
    rw [split, if_neg hb.symm, ih hrest]

theorem split_append_slash {piece : List UInt8} (h : slash ∉ piece) (bs : List UInt8) :
    split (piece ++ slash :: bs) = piece :: split bs := by
  induction piece with
  | nil => simp [split]
  | cons b rest ih =>
    obtain ⟨hb, hrest⟩ : slash ≠ b ∧ slash ∉ rest := by simpa using h
    rw [List.cons_append, split, if_neg hb.symm, ih hrest]

/-- Behind a slash the pieces of a path are those of what follows it. -/
theorem split_append (front back : List UInt8) :
    split (front ++ slash :: back) = split front ++ split back := by
  induction front with
  | nil => simp [split]
  | cons b front ih =>
    rw [List.cons_append, split, split, ih]
    by_cases hb : b = slash
    · rw [if_pos hb, if_pos hb]
      rfl
    · rw [if_neg hb, if_neg hb]
      cases hsplit : split front with
      | nil => exact absurd hsplit (split_ne_nil front)
      | cons piece pieces => rfl

/-- Pieces without slashes are found again behind their slashes. -/
theorem split_joinPieces {pieces : List (List UInt8)} (hne : pieces ≠ [])
    (h : ∀ piece ∈ pieces, slash ∉ piece) : split (joinPieces pieces) = pieces := by
  induction pieces with
  | nil => contradiction
  | cons piece pieces ih =>
    have hpiece := h piece List.mem_cons_self
    cases pieces with
    | nil => exact split_of_slash_notMem hpiece
    | cons next more =>
      rw [joinPieces, split_append_slash hpiece]
      rw [ih (List.cons_ne_nil next more) fun p hp => h p (List.mem_cons_of_mem piece hp)]

theorem joinPieces_concat {pieces : List (List UInt8)} (h : pieces ≠ []) (piece : List UInt8) :
    joinPieces (pieces ++ [piece]) = joinPieces pieces ++ slash :: piece := by
  induction pieces with
  | nil => contradiction
  | cons first rest ih =>
    cases rest with
    | nil => rfl
    | cons next more =>
      have hrest := ih (List.cons_ne_nil next more)
      rw [List.cons_append] at hrest
      rw [List.cons_append, List.cons_append, joinPieces, hrest, joinPieces, List.append_assoc,
        List.cons_append]

/-- The first of some pieces spell the front of what all of them spell. -/
theorem joinPieces_mono {pieces more : List (List UInt8)} (h : pieces <+: more) :
    joinPieces pieces <+: joinPieces more := by
  obtain ⟨rest, rfl⟩ := h
  by_cases hne : pieces = []
  · rw [hne]
    exact List.nil_prefix
  · induction rest using List.reverseRecOn with
    | nil => exact (List.append_nil pieces).symm ▸ List.prefix_refl _
    | append_singleton rest piece ih =>
      rw [← List.append_assoc, joinPieces_concat (by simp [hne])]
      exact ih.trans (List.prefix_append _ _)

/-! ### From pieces to components -/

theorem componentsOf_append (pieces more : List (List UInt8)) :
    componentsOf (pieces ++ more) = componentsOf pieces ++ componentsOf more := by
  simp [componentsOf]

theorem componentsOf_singleton_of_isIdle {piece : List UInt8} (h : isIdle piece = true) :
    componentsOf [piece] = [] := by
  simp [componentsOf, h]

theorem componentsOf_singleton {piece : List UInt8} (h : isIdle piece = false) :
    componentsOf [piece] = [.ofPiece piece] := by
  simp [componentsOf, h]

theorem isSpellable_ofPiece {piece : List UInt8} (hne : piece ≠ []) (h : slash ∉ piece) :
    (Component.ofPiece piece).IsSpellable := by
  rw [Component.ofPiece]
  split
  · trivial
  · split
    · trivial
    · next hdot hdots => exact ⟨hne, h, hdot, hdots⟩

private theorem isSpellable_of_mem_componentsOf {pieces : List (List UInt8)}
    (h : ∀ piece ∈ pieces, slash ∉ piece) {c : Component} (hc : c ∈ componentsOf pieces) :
    c.IsSpellable ∧ c ≠ .root ∧ c ≠ .current := by
  simp only [componentsOf, List.mem_map, List.mem_filter] at hc
  obtain ⟨piece, ⟨hmem, hidle⟩, rfl⟩ := hc
  obtain ⟨hne, hdot⟩ : piece ≠ [] ∧ piece ≠ [dot] := by simpa [isIdle] using hidle
  refine ⟨isSpellable_ofPiece hne (h piece hmem), ?_⟩
  rw [Component.ofPiece, if_neg hdot]
  split <;> simp

/-- Every spelling names steps that can be spelled. -/
theorem location_isSpelled (p : Path) : p.location.IsSpelled := by
  have hpieces (piece) (h : piece ∈ split p.bytes) := slash_notMem_of_mem_split h
  rw [location]
  split
  · exact ⟨by simp, by simp⟩
  · exact ⟨by simp, by simp⟩
  · next rest _ hsplit =>
    have hrest (c) (hc : c ∈ componentsOf rest) := isSpellable_of_mem_componentsOf
      (fun piece h => hpieces piece (hsplit ▸ List.mem_cons_of_mem [] h)) hc
    refine ⟨fun c hc => ?_, fun c hc => (hrest c hc).2⟩
    rcases List.mem_cons.1 hc with rfl | hc
    · trivial
    · exact (hrest c hc).1
  · next front rest hsingle hfront hsplit =>
    have hrest (c) (hc : c ∈ componentsOf rest) := isSpellable_of_mem_componentsOf
      (fun piece h => hpieces piece (hsplit ▸ List.mem_cons_of_mem front h)) hc
    have hne : front ≠ [] := fun hnil => hfront hnil
    refine ⟨fun c hc => ?_, fun c hc => (hrest c hc).2⟩
    rcases List.mem_cons.1 hc with rfl | hc
    · exact isSpellable_ofPiece hne (hpieces front (hsplit ▸ List.mem_cons_self))
    · exact (hrest c hc).1

theorem location_of_split_root {p : Path} {rest : List (List UInt8)}
    (h : split p.bytes = [] :: rest) (hrest : rest ≠ []) :
    p.location = .root :: componentsOf rest := by
  rw [location, h]
  cases rest with
  | nil => contradiction
  | cons piece rest => rfl

theorem location_of_split {p : Path} {front : List UInt8} {rest : List (List UInt8)}
    (h : split p.bytes = front :: rest) (hfront : front ≠ []) :
    p.location = .ofPiece front :: componentsOf rest := by
  rw [location, h]
  cases front with
  | nil => contradiction
  | cons b front => cases rest <;> rfl

/-- The steps of an absolute path begin at the root. -/
theorem head?_location {p : Path} (h : p.isAbsolute = true) : p.location.head? = some .root := by
  obtain ⟨bytes⟩ := p
  have hhead : bytes.head? = some slash := by simpa [isAbsolute] using h
  obtain ⟨rest, rfl⟩ := List.head?_eq_some_iff.1 hhead
  rw [location_of_split_root (split_slash_cons rest) (split_ne_nil rest)]
  rfl

theorem location_ne_nil {p : Path} (h : p.isAbsolute = true) : p.location ≠ [] :=
  List.ne_nil_of_mem (List.mem_of_mem_head? (head?_location h))

end Path

/-! ### The plainest spelling -/

namespace Component

variable {c : Component}

theorem slash_notMem_toPiece (h : c.IsSpellable) : Path.slash ∉ c.toPiece := by
  cases c with
  | root => simp [toPiece]
  | current => decide
  | parent => decide
  | name bytes => exact h.2.1

theorem ofPiece_toPiece (h : c.IsSpellable) (hroot : c ≠ .root) : ofPiece c.toPiece = c := by
  cases c with
  | root => contradiction
  | current => rfl
  | parent => rfl
  | name bytes => simp [toPiece, ofPiece, h.2.2.1, h.2.2.2]

theorem toPiece_ne_nil (h : c.IsSpellable) (hroot : c ≠ .root) : c.toPiece ≠ [] := by
  cases c with
  | root => contradiction
  | current => simp [toPiece]
  | parent => simp [toPiece]
  | name bytes => exact h.1

theorem isIdle_toPiece (h : c.IsSpellable) (hroot : c ≠ .root) (hdot : c ≠ .current) :
    Path.isIdle c.toPiece = false := by
  cases c with
  | root => contradiction
  | current => contradiction
  | parent => rfl
  | name bytes => simp [toPiece, Path.isIdle, h.1, h.2.2.1]

end Component

namespace Location

variable {l : Location}

private theorem componentsOf_toPiece (h : ∀ c ∈ l, c.IsSpellable)
    (hplain : ∀ c ∈ l, c ≠ .root ∧ c ≠ .current) :
    Path.componentsOf (l.map Component.toPiece) = l := by
  induction l with
  | nil => rfl
  | cons c l ih =>
    obtain ⟨hc, hl⟩ := List.forall_mem_cons.1 h
    obtain ⟨hcplain, hlplain⟩ := List.forall_mem_cons.1 hplain
    have hidle := Component.isIdle_toPiece hc hcplain.1 hcplain.2
    rw [List.map_cons, ← List.singleton_append, Path.componentsOf_append,
      Path.componentsOf_singleton hidle, Component.ofPiece_toPiece hc hcplain.1, ih hl hlplain]
    rfl

theorem toPath_of_ne_root (h : l ≠ [.root]) :
    l.toPath = ⟨Path.joinPieces (l.map Component.toPiece)⟩ := by
  rw [toPath]
  exact h

theorem split_toPath (h : l.IsSpelled) (hne : l ≠ []) (hroot : l ≠ [.root]) :
    Path.split l.toPath.bytes = l.map Component.toPiece := by
  rw [toPath_of_ne_root hroot]
  refine Path.split_joinPieces (by simpa using hne) fun piece hpiece => ?_
  obtain ⟨c, hc, rfl⟩ := List.mem_map.1 hpiece
  exact Component.slash_notMem_toPiece (h.1 c hc)

/-- The plainest spelling of steps names these steps. -/
theorem location_toPath (h : l.IsSpelled) : l.toPath.location = l := by
  cases l with
  | nil => rfl
  | cons c rest =>
    obtain ⟨hc, hrest⟩ := List.forall_mem_cons.1 h.1
    by_cases hroot : c = .root
    · subst hroot
      by_cases hnil : rest = []
      · subst hnil
        rfl
      · have hsplit := split_toPath h (by simp) (by simpa using hnil)
        rw [Path.location_of_split_root hsplit (by simpa using hnil),
          componentsOf_toPiece hrest h.2]
    · have hsplit := split_toPath h (by simp) (by simp [hroot])
      rw [Path.location_of_split hsplit (Component.toPiece_ne_nil hc hroot),
        Component.ofPiece_toPiece hc hroot, componentsOf_toPiece hrest h.2]

/-! ### Canonical steps -/

theorem canonical_ne_nil (l : Location) : l.canonical ≠ [] := by
  rw [canonical]
  split
  · simp
  · next hne => exact hne

theorem isSpelled_filter (h : l.IsSpelled) (p : Component → Bool) :
    IsSpelled (l.filter p) := by
  refine ⟨fun c hc => h.1 c (List.mem_filter.1 hc).1, fun c hc => ?_⟩
  cases l with
  | nil => simp at hc
  | cons d rest =>
    refine h.2 c ?_
    by_cases hd : p d = true
    · rw [List.filter_cons_of_pos hd] at hc
      exact (List.mem_filter.1 hc).1
    · rw [List.filter_cons_of_neg hd] at hc
      exact (List.mem_filter.1 (List.mem_of_mem_tail hc)).1

theorem canonical_of_filter_ne_nil (h : l.filter (· ≠ .current) ≠ []) :
    l.canonical = l.filter (· ≠ .current) := by
  rw [canonical]
  split
  · contradiction
  · rfl

theorem canonical_of_filter_eq_nil (h : l.filter (· ≠ .current) = []) :
    l.canonical = [.current] := by
  rw [canonical, h]

theorem canonical_canonical (l : Location) : l.canonical.canonical = l.canonical := by
  by_cases h : l.filter (· ≠ .current) = []
  · rw [canonical_of_filter_eq_nil h]
    rfl
  · have hidem : (l.filter (· ≠ .current)).filter (· ≠ .current) = l.filter (· ≠ .current) := by
      rw [List.filter_filter]
      simp only [Bool.and_self]
    rw [canonical_of_filter_ne_nil h, canonical_of_filter_ne_nil (by rwa [hidem]), hidem]

/-- The canonical form of any spelling is canonical. -/
theorem isCanonical_canonical (h : l.IsSpelled) : l.canonical.IsCanonical := by
  refine ⟨?_, canonical_canonical l⟩
  rw [canonical]
  split
  · exact ⟨by simp [Component.IsSpellable], by simp⟩
  · exact isSpelled_filter h _

theorem IsCanonical.ne_nil (h : l.IsCanonical) : l ≠ [] := h.2 ▸ l.canonical_ne_nil

/-- The plainest spelling of canonical steps is its own normal form. -/
theorem normalize_toPath (h : l.IsCanonical) : l.toPath.normalize = l.toPath := by
  rw [Path.normalize, location_toPath h.1, h.2]

end Location

/-- A normal form names the canonical steps of what it was made from. -/
theorem Path.location_normalize (p : Path) : p.normalize.location = p.location.canonical :=
  Location.location_toPath (Location.isCanonical_canonical p.location_isSpelled).1

/-! ### Walking up in a spelling -/

namespace Path

private theorem componentsOf_dropWhile_isIdle (pieces : List (List UInt8)) :
    componentsOf (pieces.dropWhile isIdle).reverse = componentsOf pieces.reverse := by
  induction pieces with
  | nil => rfl
  | cons piece rest ih =>
    by_cases h : isIdle piece = true
    · rw [List.dropWhile_cons_of_pos h, ih, List.reverse_cons, componentsOf_append,
        componentsOf_singleton_of_isIdle h, List.append_nil]
    · rw [List.dropWhile_cons_of_neg h]

private theorem map_componentsOf_remainders (pieces : List (List UInt8)) :
    (remainders pieces).map (fun r => componentsOf r.reverse) =
      (properInits (componentsOf pieces.reverse)).reverse := by
  induction pieces with
  | nil => rfl
  | cons piece rest ih =>
    rw [List.reverse_cons, componentsOf_append, remainders]
    by_cases h : isIdle piece = true
    · rw [if_pos h, ih, componentsOf_singleton_of_isIdle h, List.append_nil]
    · rw [Bool.not_eq_true] at h
      rw [componentsOf_singleton h, properInits_concat, List.reverse_append]
      simp [h, ih, componentsOf_dropWhile_isIdle]

/-- What remains of some pieces is the end of them that is left. -/
private theorem isSuffix_of_mem_remainders {pieces r : List (List UInt8)}
    (h : r ∈ remainders pieces) : r <:+ pieces := by
  induction pieces with
  | nil => simp [remainders] at h
  | cons first rest ih =>
    rw [remainders] at h
    split at h
    · exact (ih h).trans (List.suffix_cons first rest)
    · rcases List.mem_cons.1 h with rfl | h
      · exact (List.dropWhile_suffix _).trans (List.suffix_cons first rest)
      · exact (ih h).trans (List.suffix_cons first rest)

private theorem location_slash_joinPieces {pieces : List (List UInt8)}
    (h : ∀ piece ∈ pieces, slash ∉ piece) :
    location ⟨slash :: joinPieces pieces⟩ = .root :: componentsOf pieces := by
  cases pieces with
  | nil => rfl
  | cons piece rest =>
    refine location_of_split_root ?_ (List.cons_ne_nil piece rest)
    change split ([] ++ slash :: joinPieces (piece :: rest)) = _
    rw [split_append_slash (by simp), split_joinPieces (List.cons_ne_nil piece rest) h]

private theorem location_ancestors_of_root {p : Path} {rest : List (List UInt8)}
    (h : split p.bytes = [] :: rest) (hrest : rest ≠ []) :
    p.ancestors.map location = p.location.ancestors := by
  have hpieces (piece) (hpiece : piece ∈ split p.bytes) := slash_notMem_of_mem_split hpiece
  have hancestors : p.ancestors =
      (remainders rest.reverse).map fun r => ⟨slash :: joinPieces r.reverse⟩ := by
    rw [ancestors, h]
    cases rest with
    | nil => contradiction
    | cons piece rest => rfl
  have hwalk : (remainders rest.reverse).map
        (location ∘ fun r => ⟨slash :: joinPieces r.reverse⟩) =
      (remainders rest.reverse).map ((.root :: ·) ∘ fun r => componentsOf r.reverse) := by
    refine List.map_congr_left fun r hr => location_slash_joinPieces fun piece hpiece => ?_
    have hmem := (isSuffix_of_mem_remainders hr).mem (List.mem_reverse.1 hpiece)
    exact hpieces piece (h ▸ List.mem_cons_of_mem [] (List.mem_reverse.1 hmem))
  rw [location_of_split_root h hrest, hancestors, List.map_map, hwalk, ← List.map_map,
    map_componentsOf_remainders, List.reverse_reverse, List.map_reverse]
  rfl

private theorem location_ancestors_of_front {p : Path} {front : List UInt8}
    {rest : List (List UInt8)} (h : split p.bytes = front :: rest) (hfront : front ≠ []) :
    p.ancestors.map location = p.location.ancestors := by
  have hpieces (piece) (hpiece : piece ∈ split p.bytes) := slash_notMem_of_mem_split hpiece
  have hancestors : p.ancestors =
      (remainders rest.reverse).map (fun r => ⟨joinPieces (front :: r.reverse)⟩) ++ [⟨[]⟩] := by
    rw [ancestors, h]
    cases front with
    | nil => contradiction
    | cons b front => cases rest <;> rfl
  have hwalk : (remainders rest.reverse).map
        (location ∘ fun r => ⟨joinPieces (front :: r.reverse)⟩) =
      (remainders rest.reverse).map
        ((Component.ofPiece front :: ·) ∘ fun r => componentsOf r.reverse) := by
    refine List.map_congr_left fun r hr => location_of_split ?_ hfront
    refine split_joinPieces (by simp) fun piece hpiece => ?_
    rcases List.mem_cons.1 hpiece with rfl | hpiece
    · exact hpieces piece (h ▸ List.mem_cons_self)
    · have hmem := (isSuffix_of_mem_remainders hr).mem (List.mem_reverse.1 hpiece)
      exact hpieces piece (h ▸ List.mem_cons_of_mem front (List.mem_reverse.1 hmem))
  have hrelative (l : Location) : Location.ancestors (.ofPiece front :: l) =
      (properInits (Component.ofPiece front :: l)).reverse := by
    rw [Component.ofPiece]
    split
    · rfl
    · split <;> rfl
  rw [location_of_split h hfront, hancestors, hrelative, List.map_append, List.map_map, hwalk,
    ← List.map_map, map_componentsOf_remainders, List.reverse_reverse, List.map_reverse,
    properInits, List.reverse_cons]
  rfl

/-- Walking up in a spelling comes past the places above what it names. -/
theorem location_ancestors (p : Path) : p.ancestors.map location = p.location.ancestors := by
  match h : split p.bytes with
  | [] => exact absurd h (split_ne_nil p.bytes)
  | [[]] => rw [ancestors, location, h]; rfl
  | [] :: piece :: rest => exact location_ancestors_of_root h (List.cons_ne_nil piece rest)
  | (b :: front) :: rest => exact location_ancestors_of_front h (List.cons_ne_nil b front)

/-- The paths above a path are spelled as its front. -/
theorem prefix_of_mem_ancestors {p q : Path} (h : q ∈ p.ancestors) : q.bytes <+: p.bytes := by
  have hfront {rest r : List (List UInt8)} (hr : r ∈ remainders rest.reverse) :
      r.reverse <+: rest := by
    have hpre := List.reverse_prefix.2 (isSuffix_of_mem_remainders hr)
    rwa [List.reverse_reverse] at hpre
  rw [← joinPieces_split p.bytes]
  match hsplit : split p.bytes with
  | [] => simp [ancestors, hsplit] at h
  | [[]] => simp [ancestors, hsplit] at h
  | [] :: piece :: rest =>
    rw [ancestors, hsplit] at h
    obtain ⟨r, hr, rfl⟩ := List.mem_map.1 h
    exact List.cons_prefix_cons.2 ⟨rfl, joinPieces_mono (hfront hr)⟩
  | (b :: front) :: rest =>
    have hwalk : p.ancestors = (remainders rest.reverse).map
        (fun r => ⟨joinPieces ((b :: front) :: r.reverse)⟩) ++ [⟨[]⟩] := by
      rw [ancestors, hsplit]
    rw [hwalk, List.mem_append, List.mem_singleton] at h
    rcases h with h | rfl
    · obtain ⟨r, hr, rfl⟩ := List.mem_map.1 h
      exact joinPieces_mono (List.cons_prefix_cons.2 ⟨rfl, hfront hr⟩)
    · exact List.nil_prefix

end Path

end IndexControl
