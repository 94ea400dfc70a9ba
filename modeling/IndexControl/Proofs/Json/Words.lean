import IndexControl.Json.Token
import Mathlib.Data.List.Basic
import Mathlib.Data.List.TakeDrop
import Mathlib.Tactic.IntervalCases

/-!
# Words that are read as they were written

A text in quotes is one word with this text, whatever characters it holds, and the decimal digits
of a number are one word with its value, unless something that could go on a number stands behind
them.

## Main definitions

* `Json.EndsNumber`: what stands behind a number does not go on with it.
* `Json.Spells`: some characters spell words, in front of what does not go on a number.

## Main results

* `Json.readString?_escape`: a text in quotes is read back.
* `Text.readDigits_decimal`: the digits of a number have its value.
* `Json.readNumber?_decimal`: a number is read back.
* `Json.tokens?_quoted`, `Json.spells_decimal`: the two as words of a text.
-/

namespace IndexControl

/-! ### Digits -/

namespace Text

theorem readDigits_append (base value : Nat) (front back : List Char) :
    readDigits base value (front ++ back) =
      (readDigits base value front).bind fun value => readDigits base value back := by
  induction front generalizing value with
  | nil => rfl
  | cons c front ih =>
    rw [List.cons_append, readDigits, readDigits]
    cases digitBelow base c with
    | none => rfl
    | some digit => exact ih _

theorem digitBelow_digitChar {n : Nat} (h : n < 10) :
    digitBelow 10 (Nat.digitChar n) = some n := by
  interval_cases n <;> decide

/-- The digits of a number have its value. -/
theorem readDigits_decimal (n : Nat) : readDigits 10 0 (decimal n) = some n := by
  rw [decimal]
  induction n using Nat.strongRecOn with
  | ind n ih =>
    rw [Nat.toDigits_eq_if (by decide)]
    split
    · next hn => simp [readDigits, digitBelow_digitChar hn]
    · next hn =>
      rw [readDigits_append, ih (n / 10) (by omega)]
      simp only [Option.bind_some, readDigits, digitBelow_digitChar (Nat.mod_lt n (by decide)),
        Option.bind_eq_bind]
      congr 1
      omega

/-- The digits of a number begin with a zero only if it is zero. -/
theorem eq_zero_of_head?_decimal {n : Nat} (h : (decimal n).head? = some '0') : n = 0 := by
  rw [decimal] at h
  induction n using Nat.strongRecOn with
  | ind n ih =>
    rw [Nat.toDigits_eq_if (by decide)] at h
    split at h
    · simpa using h
    · next hn =>
      rw [List.head?_append_of_ne_nil _ Nat.toDigits_ne_nil] at h
      have := ih (n / 10) (by omega) h
      omega

end Text

namespace Json

/-! ### Texts in quotes -/

/-- The element that is read where a character was written. -/
def written (c : Char) : Item :=
  if c < ' ' ∧ c ∉ ['\n', '\r', '\t', '\x08', '\x0c'] then .unit c.toNat else .char c

/-- The four digits of the number of a control character are read as this number. -/
theorem hex4?_padZeros {n : Nat} (h : n < 32) :
    ∃ a b c d, Text.padZeros 4 (Text.hexadecimal n) = [a, b, c, d] ∧ hex4? a b c d = some n := by
  interval_cases n <;> exact ⟨_, _, _, _, rfl, rfl⟩

/-- A written character is read as one element. -/
theorem readItems?_escape (c : Char) (rest : List Char) :
    readItems? (escape c ++ rest) =
      (readItems? rest).map fun r => (written c :: r.1, r.2) := by
  have hletter {c d : Char} (hd : d ≠ 'u') (hc : shortEscape? d = some c)
      (hw : written c = .char c) :
      readItems? ('\\' :: d :: rest) = (readItems? rest).map fun r => (written c :: r.1, r.2) := by
    rw [readItems?]
    · simp [hc, hw]
    · exact fun _ _ _ _ _ heq _ => hd heq
  unfold escape
  split_ifs with hquote hbackslash hn hr ht hb hf hcontrol
  · subst hquote
    exact hletter (by decide) rfl rfl
  · subst hbackslash
    exact hletter (by decide) rfl rfl
  · subst hn
    exact hletter (by decide) rfl rfl
  · subst hr
    exact hletter (by decide) rfl rfl
  · subst ht
    exact hletter (by decide) rfl rfl
  · subst hb
    exact hletter (by decide) rfl rfl
  · subst hf
    exact hletter (by decide) rfl rfl
  · obtain ⟨i, j, k, l, hdigits, hvalue⟩ := hex4?_padZeros (n := c.toNat) hcontrol
    rw [hdigits, written, if_pos (by simp [*])]
    simp [readItems?, hvalue]
  · have hplain : written c = .char c := if_neg fun h => hcontrol h.1
    rw [List.singleton_append, readItems?, if_neg hcontrol, hplain]
    all_goals grind

/-- The elements of a written text stand for its characters. -/
theorem itemsText?_written (cs : List Char) : itemsText? (cs.map written) = some cs := by
  have hunit (n : Nat) (h : n < 0xD800) (rest : List Item) :
      itemsText? (.unit n :: rest) = (itemsText? rest).map (Char.ofNat n :: ·) := by
    have hhigh : isHighHalf n = false := by simp [isHighHalf]; omega
    have hlow : isLowHalf n = false := by simp [isLowHalf]; omega
    cases rest with
    | nil => simp [itemsText?, hhigh, hlow]
    | cons item rest => cases item <;> simp [itemsText?, hhigh, hlow]
  induction cs with
  | nil => rfl
  | cons c cs ih =>
    rw [List.map_cons, written]
    split
    · next hcontrol =>
      have hvalue : c.toNat < 0xD800 := by
        have : c.toNat < 32 := hcontrol.1
        omega
      rw [hunit _ hvalue, ih, Option.map_some, Char.ofNat_toNat]
    · rw [itemsText?, ih, Option.map_some]

/-- A text in quotes is read back. -/
theorem readString?_escape (text : String) (rest : List Char) :
    readString? (text.toList.flatMap escape ++ '"' :: rest) = some (some text, rest) := by
  have hitems (cs : List Char) :
      readItems? (cs.flatMap escape ++ '"' :: rest) = some (cs.map written, rest) := by
    induction cs with
    | nil => rw [List.flatMap_nil, List.nil_append, readItems?, List.map_nil]
    | cons c cs ih =>
      rw [List.flatMap_cons, List.append_assoc, readItems?_escape, ih]
      rfl
  rw [readString?, hitems, Option.map_some, itemsText?_written]
  simp

/-! ### Numbers -/

/-- What stands behind a number does not go on with it. -/
def EndsNumber (cs : List Char) : Prop :=
  ∀ c ∈ cs.head?, c.isDigit = false ∧ c ≠ '.' ∧ c ≠ 'e' ∧ c ≠ 'E'

theorem spanDigits_append {digits rest : List Char} (hdigits : ∀ c ∈ digits, c.isDigit = true)
    (hrest : EndsNumber rest) : spanDigits (digits ++ rest) = (digits, rest) := by
  rw [spanDigits, List.span_eq_takeWhile_dropWhile, List.takeWhile_append_of_pos hdigits,
    List.dropWhile_append_of_pos hdigits]
  cases rest with
  | nil => simp
  | cons c rest => simp [(hrest c rfl).1]

theorem cutFraction?_of_endsNumber {rest : List Char} (h : EndsNumber rest) :
    cutFraction? rest = some (false, rest) := by
  unfold cutFraction?
  split
  · next rest => exact absurd rfl (h '.' rfl).2.1
  · rfl

theorem cutExponent?_of_endsNumber {rest : List Char} (h : EndsNumber rest) :
    cutExponent? rest = some (false, rest) := by
  cases rest with
  | nil => rfl
  | cons c rest =>
    obtain ⟨-, -, he, hE⟩ := h c rfl
    unfold cutExponent?
    exact if_neg (by simp [he, hE])

/-- A number is read back. -/
theorem readNumber?_decimal (n : Nat) {rest : List Char} (h : EndsNumber rest) :
    readNumber? (Text.decimal n ++ rest) = some (some n, rest) := by
  have hdigits : ∀ c ∈ Text.decimal n, c.isDigit = true := fun _ => Text.isDigit_of_mem_decimal
  have hne := Text.decimal_ne_nil n
  have hsign (more : List Char) : Text.decimal n ++ rest ≠ '-' :: more := by
    intro hminus
    obtain ⟨d, ds, hd⟩ := List.exists_cons_of_ne_nil hne
    rw [hd, List.cons_append, List.cons.injEq] at hminus
    have hdigit := hdigits d (hd ▸ List.mem_cons_self)
    rw [hminus.1] at hdigit
    cases hdigit
  have hzero : ¬((Text.decimal n).isEmpty ||
      ((Text.decimal n).head? = some '0' && (Text.decimal n).length ≠ 1)) = true := by
    by_cases hhead : (Text.decimal n).head? = some '0'
    · obtain rfl := Text.eq_zero_of_head?_decimal hhead
      decide
    · simp [hne, hhead]
  rw [readNumber?]
  · simp only [spanDigits_append hdigits h, if_neg hzero]
    simp [cutFraction?_of_endsNumber h, cutExponent?_of_endsNumber h, Text.readDigits_decimal]
  · exact hsign

/-! ### Words of a text -/

/-- More room does no harm. -/
theorem tokensFrom_of_le {fuel fuel' : Nat} {cs : List Char} {tokens : List Token}
    (h : tokensFrom fuel cs = some tokens) (hle : fuel ≤ fuel') :
    tokensFrom fuel' cs = some tokens := by
  induction fuel generalizing fuel' cs tokens with
  | zero =>
    cases cs with
    | nil => simpa [tokensFrom] using h
    | cons c rest => cases h
  | succ fuel ih =>
    cases cs with
    | nil => simpa [tokensFrom] using h
    | cons c rest =>
      obtain ⟨fuel', rfl⟩ : ∃ k, fuel' = k + 1 := ⟨fuel' - 1, by omega⟩
      have hle : fuel ≤ fuel' := Nat.le_of_succ_le_succ hle
      rw [tokensFrom] at h ⊢
      split at h
      · next hc => rw [if_pos hc, ih h hle]
      · next hc =>
        simp only [Option.bind_eq_bind, Option.bind_eq_some_iff, Option.pure_def,
          Option.some.injEq] at h
        obtain ⟨⟨token, rest'⟩, hread, tokens', htokens, rfl⟩ := h
        rw [if_neg hc, hread]
        simp [ih htokens hle]

theorem tokens?_space {c : Char} {rest : List Char} (hc : isSpace c = true) :
    tokens? (c :: rest) = tokens? rest := by
  rw [tokens?, List.length_cons, tokensFrom, if_pos hc, tokens?]

theorem tokens?_spaces {blanks rest : List Char} (h : blanks.all isSpace = true) :
    tokens? (blanks ++ rest) = tokens? rest := by
  induction blanks with
  | nil => rfl
  | cons c blanks ih =>
    rw [List.all_cons, Bool.and_eq_true] at h
    rw [List.cons_append, tokens?_space h.1]
    exact ih h.2

/-- A word at the front of a text. -/
theorem tokens?_word {c : Char} {cs rest : List Char} {token : Token} {tokens : List Token}
    (hc : isSpace c = false) (hread : readToken? (c :: cs ++ rest) = some (token, rest))
    (h : tokens? rest = some tokens) : tokens? (c :: cs ++ rest) = some (token :: tokens) := by
  have hrest : tokensFrom (cs ++ rest).length rest = some tokens :=
    tokensFrom_of_le h (by simp)
  rw [List.cons_append] at hread ⊢
  rw [tokens?, List.length_cons, tokensFrom, if_neg (by simp [hc]), hread]
  simp only [Option.bind_eq_bind, Option.bind_some, hrest, Option.pure_def]

/-- A mark at the front of a text is one word. -/
theorem tokens?_mark {c : Char} {rest : List Char} {token : Token} {tokens : List Token}
    (hc : isSpace c = false) (hread : readToken? (c :: rest) = some (token, rest))
    (h : tokens? rest = some tokens) : tokens? (c :: rest) = some (token :: tokens) :=
  @tokens?_word c [] rest token tokens hc hread h

/-- A text in quotes is one word. -/
theorem tokens?_quoted (text : String) {rest : List Char} {tokens : List Token}
    (h : tokens? rest = some tokens) :
    tokens? (quoted text ++ rest) = some (.string (some text) :: tokens) := by
  rw [quoted, List.cons_append]
  refine tokens?_word (by decide) ?_ h
  rw [List.cons_append, List.append_assoc, readToken?, List.singleton_append, readString?_escape]
  rfl

/-- Some characters spell words, in front of what does not go on a number. -/
def Spells (cs : List Char) (words : List Token) : Prop :=
  ∀ ⦃rest tokens⦄, EndsNumber rest → tokens? rest = some tokens →
    tokens? (cs ++ rest) = some (words ++ tokens)

/-- A text in quotes spells one word. -/
theorem spells_quoted (text : String) : Spells (quoted text) [.string (some text)] :=
  fun _ _ _ h => tokens?_quoted text h

theorem isSpace_of_isDigit {c : Char} (hc : c.isDigit = true) : isSpace c = false := by
  by_contra hspace
  simp only [isSpace, Bool.not_eq_false, Bool.or_eq_true, decide_eq_true_eq] at hspace
  rcases hspace with ((rfl | rfl) | rfl) | rfl <;> cases hc

theorem readToken?_of_isDigit {c : Char} (hc : c.isDigit = true) (rest : List Char) :
    readToken? (c :: rest) = (readNumber? (c :: rest)).map fun r => (.number r.1, r.2) := by
  unfold readToken?
  split
  all_goals first | rfl | (next heq => cases heq; cases hc)

/-- The digits of a number spell one word. -/
theorem spells_decimal (n : Nat) : Spells (Text.decimal n) [.number (some n)] := by
  intro rest tokens hrest h
  have hread := readNumber?_decimal n hrest
  obtain ⟨d, ds, hd⟩ := List.exists_cons_of_ne_nil (Text.decimal_ne_nil n)
  have hdigit : d.isDigit = true := Text.isDigit_of_mem_decimal (hd ▸ List.mem_cons_self)
  rw [hd] at hread ⊢
  refine tokens?_word (isSpace_of_isDigit hdigit) ?_ h
  rw [List.cons_append, readToken?_of_isDigit hdigit, ← List.cons_append, hread]
  rfl

/-- A truth value spells one word. -/
theorem spells_bool (b : Bool) : Spells (if b then "true" else "false").toList [.bool b] := by
  intro rest tokens _ h
  cases b with
  | false => exact tokens?_word (c := 'f') rfl rfl h
  | true => exact tokens?_word (c := 't') rfl rfl h

theorem spells_null : Spells "null".toList [.null] :=
  fun _ _ _ h => tokens?_word (c := 'n') rfl rfl h

end Json

end IndexControl
