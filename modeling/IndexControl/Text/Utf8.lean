/-!
# Text and its UTF-8 bytes

File names are bytes and need not be text; messages and stored files are text and travel as
bytes. This module holds both directions, and the lenient reading that writes the replacement
character for every stretch of bytes that cannot be continued to a character.

## Main definitions

* `Text.utf8`: the bytes of a text.
* `Text.ofUtf8?`: the text of some bytes, where they are the bytes of a text.
* `Text.lossy`: a text for any bytes.
-/

namespace IndexControl.Text

/-- The UTF-8 bytes of a text. -/
def utf8 (s : String) : List UInt8 := s.toUTF8.data.toList

/-- The text whose UTF-8 bytes are `bytes`, if there is one. -/
def ofUtf8? (bytes : List UInt8) : Option String := String.fromUTF8? ⟨bytes.toArray⟩

@[simp]
theorem ofUtf8?_utf8 (s : String) : ofUtf8? (utf8 s) = some s := by
  have h : (ByteArray.mk (utf8 s).toArray) = s.toByteArray := by simp [utf8]
  rw [ofUtf8?, h, String.fromUTF8?, dif_pos s.isValidUTF8]
  rfl

theorem utf8_of_ofUtf8? {bytes : List UInt8} {s : String} (h : ofUtf8? bytes = some s) :
    utf8 s = bytes := by
  rw [ofUtf8?, String.fromUTF8?] at h
  split at h
  · obtain rfl := Option.some.inj h
    simp [utf8, String.fromUTF8]
  · cases h

theorem utf8_injective {s t : String} (h : utf8 s = utf8 t) : s = t := by
  have := congrArg ofUtf8? h
  simpa using this

/-! ### Lenient reading -/

/-- A character of which some bytes have been read: the value so far, how many bytes are owed,
and the bounds of the next one. -/
structure Begun where
  value : Nat
  owed : Nat
  low : UInt8
  high : UInt8

/-- What a byte at the start of a character means. -/
inductive FirstByte where
  | whole (c : Char)
  | begun (b : Begun)
  | invalid

/-- Read the first byte of a character. The bounds rule out overlong forms, surrogates and
values beyond the last code point. -/
def FirstByte.ofByte (b : UInt8) : FirstByte :=
  if b < 0x80 then .whole (Char.ofNat b.toNat)
  else if b < 0xC2 then .invalid
  else if b < 0xE0 then .begun ⟨b.toNat - 0xC0, 1, 0x80, 0xBF⟩
  else if b = 0xE0 then .begun ⟨0, 2, 0xA0, 0xBF⟩
  else if b = 0xED then .begun ⟨0xD, 2, 0x80, 0x9F⟩
  else if b < 0xF0 then .begun ⟨b.toNat - 0xE0, 2, 0x80, 0xBF⟩
  else if b = 0xF0 then .begun ⟨0, 3, 0x90, 0xBF⟩
  else if b < 0xF4 then .begun ⟨b.toNat - 0xF0, 3, 0x80, 0xBF⟩
  else if b = 0xF4 then .begun ⟨4, 3, 0x80, 0x8F⟩
  else .invalid

/-- The character that stands for bytes that are not text. -/
def replacement : Char := Char.ofNat 0xFFFD

/-- Read characters one byte at a time. A byte that cannot continue the character begun so far
ends it as one replacement character and is then read as a first byte itself. -/
def lossyFrom : Option Begun → List UInt8 → List Char
  | none, [] => []
  | some _, [] => [replacement]
  | none, b :: rest => start b (lossyFrom · rest)
  | some p, b :: rest =>
    if p.low ≤ b ∧ b ≤ p.high then
      let value := p.value * 64 + (b.toNat - 0x80)
      if p.owed ≤ 1 then Char.ofNat value :: lossyFrom none rest
      else lossyFrom (some ⟨value, p.owed - 1, 0x80, 0xBF⟩) rest
    else replacement :: start b (lossyFrom · rest)
where
  /-- Begin a character at `b` and go on with `next`. -/
  start (b : UInt8) (next : Option Begun → List Char) : List Char :=
    match FirstByte.ofByte b with
    | .whole c => c :: next none
    | .begun p => next (some p)
    | .invalid => replacement :: next none

/-- A text for any bytes: their own text where they have one, and otherwise the text with a
replacement character for each longest stretch that begins a character and does not end it. -/
def lossy (bytes : List UInt8) : String :=
  (ofUtf8? bytes).getD (String.ofList (lossyFrom none bytes))

@[simp]
theorem lossy_utf8 (s : String) : lossy (utf8 s) = s := by simp [lossy]

end IndexControl.Text
