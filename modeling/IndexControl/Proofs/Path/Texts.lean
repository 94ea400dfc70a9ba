import IndexControl.Proofs.Path.Spelling
import IndexControl.Proofs.Text.Utf8

/-!
# Paths that are text

The bytes of a text are split at slashes just where its characters are. So the steps of a path that
is text are text, and the path is text again when they are spelled.

## Main results

* `Path.slash_mem_ofString_iff`, `Path.split_encode`: where the bytes of a text are split.
* `Path.exists_ofString`: bytes that are text spell what a text spells.
* `Path.exists_toList_of_isAbsolute`: what a text begins with that spells an absolute path.
* `Path.isText_toPiece`, `Location.isText_toPath`: the steps of a path that is text, and their
  spelling.
-/

namespace IndexControl

open Text

namespace Path

theorem encode_slash : String.utf8EncodeChar '/' = [slash] := by decide

theorem isText_ofString (s : String) : IsText (ofString s).bytes := ⟨s.toList, utf8_eq_encode s⟩

theorem exists_ofString {p : Path} (h : IsText p.bytes) : ∃ text, p = ofString text := by
  obtain ⟨bytes⟩ := p
  obtain ⟨cs, rfl⟩ := h
  exact ⟨.ofList cs, by rw [ofString, utf8_ofList]⟩

/-- The bytes of a text have a slash just where the text has one. -/
theorem slash_mem_ofString_iff {s : String} : slash ∈ (ofString s).bytes ↔ '/' ∈ s.toList := by
  rw [ofString, utf8_eq_encode, encode, List.mem_flatMap]
  constructor
  · rintro ⟨c, hc, hslash⟩
    have hnat := (mem_utf8EncodeChar_iff (by decide)).1 hslash
    obtain rfl : c = '/' := Char.toNat_inj.1 hnat
    exact hc
  · exact fun hc => ⟨'/', hc, by simp [encode_slash]⟩

theorem split_append_of_slash_notMem {front bytes piece : List UInt8} {pieces : List (List UInt8)}
    (h : slash ∉ front) (hsplit : split bytes = piece :: pieces) :
    split (front ++ bytes) = (front ++ piece) :: pieces := by
  induction front with
  | nil => exact hsplit
  | cons b front ih =>
    obtain ⟨hb, hfront⟩ : slash ≠ b ∧ slash ∉ front := by simpa using h
    rw [List.cons_append, split, if_neg hb.symm, ih hfront]
    rfl

/-- The bytes of a text are split at slashes just where its characters are. -/
theorem split_encode (cs : List Char) : split (encode cs) = (splitAt '/' cs).map encode := by
  induction cs with
  | nil => rfl
  | cons c cs ih =>
    rw [encode_cons, splitAt]
    by_cases hc : c = '/'
    · rw [hc, encode_slash, List.singleton_append, split_slash_cons, if_pos rfl, ih]
      rfl
    · have hslash : slash ∉ String.utf8EncodeChar c := by
        rw [mem_utf8EncodeChar_iff (by decide)]
        exact fun heq => hc (Char.toNat_inj.1 heq)
      rw [if_neg hc]
      cases hsplit : splitAt '/' cs with
      | nil =>
        rw [hsplit] at ih
        exact absurd ih (split_ne_nil _)
      | cons part parts =>
        rw [hsplit] at ih
        rw [split_append_of_slash_notMem hslash ih, List.map_cons, encode_cons]

theorem isText_of_mem_split {bytes piece : List UInt8} (h : IsText bytes)
    (hpiece : piece ∈ split bytes) : IsText piece := by
  obtain ⟨cs, rfl⟩ := h
  rw [split_encode, List.mem_map] at hpiece
  obtain ⟨part, -, rfl⟩ := hpiece
  exact ⟨part, rfl⟩

theorem isText_joinPieces {pieces : List (List UInt8)} (h : ∀ piece ∈ pieces, IsText piece) :
    IsText (joinPieces pieces) := by
  induction pieces with
  | nil => exact isText_nil
  | cons piece pieces ih =>
    obtain ⟨hpiece, hpieces⟩ := List.forall_mem_cons.1 h
    cases pieces with
    | nil => exact hpiece
    | cons next more =>
      have hslash : IsText [slash] := ⟨['/'], by decide⟩
      exact hpiece.append (hslash.append (ih hpieces))

/-- The component of a piece is spelled by this piece. -/
theorem toPiece_ofPiece (piece : List UInt8) : (Component.ofPiece piece).toPiece = piece := by
  rw [Component.ofPiece]
  split_ifs with hdot hdots
  · exact hdot.symm
  · exact hdots.symm
  · rfl

/-- The steps of a path that is text are text. -/
theorem isText_toPiece {p : Path} (h : IsText p.bytes) : ∀ c ∈ p.location, IsText c.toPiece := by
  have hpieces (piece) (hpiece : piece ∈ split p.bytes) := isText_of_mem_split h hpiece
  have hcomponents (rest : List (List UInt8)) (hrest : ∀ piece ∈ rest, IsText piece) :
      ∀ c ∈ componentsOf rest, IsText c.toPiece := by
    intro c hc
    obtain ⟨piece, hpiece, rfl⟩ := List.mem_map.1 hc
    rw [toPiece_ofPiece]
    exact hrest piece (List.mem_of_mem_filter hpiece)
  rw [location]
  split
  · simp
  · simp
  · next rest _ hsplit =>
    rw [hsplit] at hpieces
    exact List.forall_mem_cons.2 ⟨isText_nil, hcomponents rest (List.forall_mem_cons.1 hpieces).2⟩
  · next front rest _ _ hsplit =>
    rw [hsplit] at hpieces
    obtain ⟨hfront, hrest⟩ := List.forall_mem_cons.1 hpieces
    exact List.forall_mem_cons.2 ⟨(toPiece_ofPiece front).symm ▸ hfront, hcomponents rest hrest⟩

/-- A text that spells an absolute path begins with a slash. -/
theorem exists_toList_of_isAbsolute {s : String} (h : (ofString s).isAbsolute = true) :
    ∃ cs, s.toList = '/' :: cs := by
  have hhead : (encode s.toList).head? = some slash := by
    rw [← utf8_eq_encode]
    exact of_decide_eq_true h
  cases hs : s.toList with
  | nil => simp [hs] at hhead
  | cons c cs =>
    have hne : String.utf8EncodeChar c ≠ [] := List.ne_nil_of_length_pos <| by
      rw [String.length_utf8EncodeChar]
      exact c.utf8Size_pos
    rw [hs, encode_cons, List.head?_append_of_ne_nil _ hne] at hhead
    have hmem : slash ∈ String.utf8EncodeChar c := List.mem_of_mem_head? hhead
    have hc : c = '/' := Char.toNat_inj.1 ((mem_utf8EncodeChar_iff (by decide)).1 hmem)
    exact ⟨cs, by rw [hc]⟩

end Path

namespace Location

variable {l : Location}

theorem isText_toPath (h : ∀ c ∈ l, IsText c.toPiece) : IsText l.toPath.bytes := by
  by_cases hroot : l = [.root]
  · rw [hroot]
    exact ⟨['/'], by decide⟩
  · rw [toPath_of_ne_root hroot]
    refine Path.isText_joinPieces fun piece hpiece => ?_
    obtain ⟨c, hc, rfl⟩ := List.mem_map.1 hpiece
    exact h c hc

theorem isText_canonical (h : ∀ c ∈ l, IsText c.toPiece) : ∀ c ∈ l.canonical, IsText c.toPiece := by
  rw [canonical]
  split
  · exact fun c hc => List.mem_singleton.1 hc ▸ ⟨['.'], by decide⟩
  · exact fun c hc => h c (List.mem_of_mem_filter hc)

end Location

end IndexControl
