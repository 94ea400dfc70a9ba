import IndexControl.Text.Blank
import IndexControl.Text.Utf8

/-!
# The bytes of characters

A text is encoded character by character. A byte below 128 stands for the character with its number
and is no part of any other one, so that the bytes of a text can be told apart at such a byte.

## Main definitions

* `Text.encode`: the UTF-8 bytes of characters.
* `Text.IsText`: bytes that are those of some characters.

## Main results

* `Text.utf8_eq_encode`: the bytes of a text are those of its characters.
* `Text.mem_utf8EncodeChar_iff`: which character a byte below 128 belongs to.
* `Text.notMem_utf8`: the bytes that no text has.
* `Text.append_mark_inj`, `Text.append_last_mark_inj`: what is told apart by a mark.
-/

namespace IndexControl.Text

/-- The UTF-8 bytes of characters. -/
def encode (cs : List Char) : List UInt8 := cs.flatMap String.utf8EncodeChar

variable {c : Char} {cs : List Char} {b : UInt8} {bytes : List UInt8}

@[simp]
theorem encode_nil : encode [] = [] := rfl

theorem encode_cons (c : Char) (cs : List Char) :
    encode (c :: cs) = String.utf8EncodeChar c ++ encode cs :=
  List.flatMap_cons

@[simp]
theorem encode_append (cs ds : List Char) : encode (cs ++ ds) = encode cs ++ encode ds :=
  List.flatMap_append

/-- The bytes of a text are those of its characters. -/
theorem utf8_eq_encode (s : String) : utf8 s = encode s.toList := by
  rw [utf8, String.toUTF8, ← String.utf8Encode_toList, List.utf8Encode]
  simp [encode]

theorem utf8_ofList (cs : List Char) : utf8 (.ofList cs) = encode cs := by
  rw [utf8_eq_encode, String.toList_ofList]

theorem utf8EncodeChar_of_lt (hc : c.toNat < 128) :
    String.utf8EncodeChar c = [UInt8.ofNat c.toNat] := by
  have hc' : c.val.toNat ≤ 127 := Nat.le_of_lt_succ hc
  simp only [String.utf8EncodeChar, if_pos hc']
  rfl

/-- A character from 128 on has no byte below. -/
theorem le_of_mem_utf8EncodeChar (hc : 128 ≤ c.toNat) :
    ∀ b ∈ String.utf8EncodeChar c, 128 ≤ b.toNat := by
  have hwide (n : Nat) (h : 128 ≤ n % 256) : 128 ≤ (UInt8.ofNat n).toNat := by
    rwa [UInt8.toNat_ofNat']
  have hc' : ¬c.val.toNat ≤ 127 := Nat.not_le.2 hc
  simp only [String.utf8EncodeChar, if_neg hc']
  -- the marks of first and of further bytes both lie from 128 on
  split
  · simp only [List.forall_mem_cons]
    exact ⟨hwide _ (by omega), hwide _ (by omega), by simp⟩
  · split
    · simp only [List.forall_mem_cons]
      exact ⟨hwide _ (by omega), hwide _ (by omega), hwide _ (by omega), by simp⟩
    · simp only [List.forall_mem_cons]
      exact ⟨hwide _ (by omega), hwide _ (by omega), hwide _ (by omega), hwide _ (by omega), by simp⟩

/-- Bytes from 248 on begin no character and continue none. -/
theorem lt_of_mem_utf8EncodeChar : ∀ b ∈ String.utf8EncodeChar c, b.toNat < 0xF8 := by
  have hnarrow (n : Nat) (h : n < 0xF8) : (UInt8.ofNat n).toNat < 0xF8 := by
    rw [UInt8.toNat_ofNat']
    omega
  simp only [String.utf8EncodeChar]
  split
  · simp only [List.forall_mem_cons]
    exact ⟨hnarrow _ (by omega), by simp⟩
  · split
    · simp only [List.forall_mem_cons]
      exact ⟨hnarrow _ (by omega), hnarrow _ (by omega), by simp⟩
    · split
      · simp only [List.forall_mem_cons]
        exact ⟨hnarrow _ (by omega), hnarrow _ (by omega), hnarrow _ (by omega), by simp⟩
      · simp only [List.forall_mem_cons]
        exact ⟨hnarrow _ (by omega), hnarrow _ (by omega), hnarrow _ (by omega),
          hnarrow _ (by omega), by simp⟩

/-- A byte below 128 stands for the character with its number and is no part of any other one. -/
theorem mem_utf8EncodeChar_iff (hb : b.toNat < 128) :
    b ∈ String.utf8EncodeChar c ↔ c.toNat = b.toNat := by
  by_cases hc : c.toNat < 128
  · rw [utf8EncodeChar_of_lt hc, List.mem_singleton]
    refine ⟨fun heq => ?_, fun heq => ?_⟩
    · rw [heq, UInt8.toNat_ofNat']
      omega
    · rw [heq, UInt8.ofNat_toNat]
  · have hmarks := le_of_mem_utf8EncodeChar (Nat.not_lt.1 hc)
    exact iff_of_false (fun hmem => Nat.not_le.2 hb (hmarks b hmem)) (by omega)

/-- Bytes from 248 on do not occur in a text. -/
theorem notMem_utf8 {s : String} (hb : 0xF8 ≤ b.toNat) : b ∉ utf8 s := by
  rw [utf8_eq_encode, encode, List.mem_flatMap]
  rintro ⟨c, -, hmem⟩
  exact absurd (lt_of_mem_utf8EncodeChar b hmem) (Nat.not_lt.2 hb)

/-! ### Bytes that are text -/

/-- Bytes that are those of a text. -/
def IsText (bytes : List UInt8) : Prop := ∃ cs, bytes = encode cs

theorem isText_nil : IsText [] := ⟨[], rfl⟩

theorem IsText.append {front back : List UInt8} (hfront : IsText front) (hback : IsText back) :
    IsText (front ++ back) := by
  obtain ⟨cs, rfl⟩ := hfront
  obtain ⟨ds, rfl⟩ := hback
  exact ⟨cs ++ ds, (encode_append cs ds).symm⟩

/-! ### Parts with a mark between them -/

section Marks

variable {α : Type} {mark : α} {front front' rest rest' : List α}

/-- What stands in front of a mark and does not have it is told from what follows. -/
theorem append_mark_inj (h : mark ∉ front) (h' : mark ∉ front')
    (heq : front ++ mark :: rest = front' ++ mark :: rest') : front = front' ∧ rest = rest' := by
  induction front generalizing front' with
  | nil =>
    cases front' with
    | nil => exact ⟨rfl, (List.cons.inj heq).2⟩
    | cons b front' =>
      obtain rfl : mark = b := (List.cons.inj heq).1
      exact absurd List.mem_cons_self h'
  | cons b front ih =>
    cases front' with
    | nil =>
      obtain rfl : b = mark := (List.cons.inj heq).1
      exact absurd List.mem_cons_self h
    | cons b' front' =>
      obtain ⟨rfl, htail⟩ := List.cons.inj heq
      obtain ⟨rfl, hrest⟩ :=
        ih (mt (List.mem_cons_of_mem b) h) (mt (List.mem_cons_of_mem b) h') htail
      exact ⟨rfl, hrest⟩

/-- What follows a mark and does not have it is told from what stands in front, whether the mark
occurs there or not. -/
theorem append_last_mark_inj (h : mark ∉ rest) (h' : mark ∉ rest')
    (heq : front ++ mark :: rest = front' ++ mark :: rest') : front = front' ∧ rest = rest' := by
  have hreverse := congrArg List.reverse heq
  simp only [List.reverse_append, List.reverse_cons, List.append_assoc, List.singleton_append]
    at hreverse
  obtain ⟨hrest, hfront⟩ :=
    append_mark_inj (mt List.mem_reverse.1 h) (mt List.mem_reverse.1 h') hreverse
  exact ⟨List.reverse_inj.1 hfront, List.reverse_inj.1 hrest⟩

end Marks

end IndexControl.Text
