import IndexControl.Identity
import IndexControl.Proofs.Text.Utf8

/-!
# What the text of an identifier tells

The text of an identifier shows volume and number with a colon between them. A volume is any text: it
may have colons of its own, and it may look like another identifier. The number of a file is written
in digits, or not at all, so that the last colon of the text is the one in between. Therefore the
text tells both parts, missing ones included.

## Main results

* `Text.decimal_injective`, `Text.colon_notMem_decimal`: numbers in digits.
* `ContentId.text_inj`: identifiers whose numbers have no colon are told apart by their texts.
* `ContentId.text_ofInfo_eq_iff`: which files have identifiers of one text.
-/

namespace IndexControl

namespace Text

theorem decimal_injective : Function.Injective decimal := by
  intro m n h
  calc
    m = Nat.ofDigitChars 10 (decimal m) 0 := Nat.ofDigitChars_ten_toDigits.symm
    _ = Nat.ofDigitChars 10 (decimal n) 0 := by rw [h]
    _ = n := Nat.ofDigitChars_ten_toDigits

/-- Digits tell a number, and no digits that there is none. -/
theorem getD_map_decimal_inj {i j : Option Nat}
    (h : (i.map decimal).getD [] = (j.map decimal).getD []) : i = j := by
  cases i with
  | none =>
    cases j with
    | none => rfl
    | some n => exact absurd h.symm (decimal_ne_nil n)
  | some m =>
    cases j with
    | none => exact absurd h (decimal_ne_nil m)
    | some n => exact congrArg some (decimal_injective h)

theorem colon_notMem_decimal (n : Nat) : ':' ∉ decimal n := by
  intro hcolon
  exact absurd (isDigit_of_mem_decimal hcolon) (by decide)

end Text

namespace ContentId

variable {id id' : ContentId} {volume volume' : Option String} {info info' : FileInfo}

/-- Identifiers whose numbers have no colon are told apart by their texts, whatever the volumes
are. -/
theorem text_inj (h : ':' ∉ id.number.toList) (h' : ':' ∉ id'.number.toList)
    (heq : id.text = id'.text) : id = id' := by
  have hbehind : id.volume.toList ++ ':' :: id.number.toList =
      id'.volume.toList ++ ':' :: id'.number.toList := by
    have hlists := congrArg String.toList heq
    simpa [text] using hlists
  obtain ⟨hvolume, hnumber⟩ := Text.append_last_mark_inj h h' hbehind
  calc
    id = ⟨id.volume, id.number⟩ := rfl
    _ = ⟨id'.volume, id'.number⟩ := by
      rw [String.toList_injective hvolume, String.toList_injective hnumber]

/-- A number that has a colon could pass for the end of a volume. -/
example : (ContentId.mk "v" "1:2").text = (ContentId.mk "v:1" "2").text := by decide

/-- The number of an identifier is written in digits, or not at all. -/
theorem toList_number (volume : Option String) (info : FileInfo) :
    (ofInfo volume info).number.toList = (info.inode.map Text.decimal).getD [] := by
  cases hinode : info.inode <;> simp [ofInfo, hinode]

theorem colon_notMem_number (volume : Option String) (info : FileInfo) :
    ':' ∉ (ofInfo volume info).number.toList := by
  rw [toList_number]
  cases info.inode with
  | none => exact List.not_mem_nil
  | some n => exact Text.colon_notMem_decimal n

/-- The number of an identifier tells that of the file, and whether there is one. -/
theorem inode_eq_of_number_eq (h : (ofInfo volume info).number = (ofInfo volume' info').number) :
    info.inode = info'.inode := by
  refine Text.getD_map_decimal_inj ?_
  rw [← toList_number volume, ← toList_number volume', h]

/-- Two files have identifiers of one text just where their volumes are the same, those of the
roots, or else of the file systems, or else none, and their numbers are the same or both missing. -/
theorem text_ofInfo_eq_iff (volume volume' : Option String) (info info' : FileInfo) :
    (ofInfo volume info).text = (ofInfo volume' info').text ↔
      (volume.or info.fileSystem).getD "" = (volume'.or info'.fileSystem).getD "" ∧
        info.inode = info'.inode := by
  constructor
  · intro heq
    have hids := text_inj (colon_notMem_number volume info) (colon_notMem_number volume' info') heq
    exact ⟨congrArg ContentId.volume hids, inode_eq_of_number_eq (congrArg ContentId.number hids)⟩
  · rintro ⟨hvolume, hinode⟩
    have hids : ofInfo volume info = ofInfo volume' info' := by
      rw [ofInfo, ofInfo, hvolume, hinode]
    rw [hids]

end ContentId

end IndexControl
