/-!
# Numerals

Numbers are written in base ten or sixteen with the fewest digits, and read back with a bound
that the value may not exceed.

## Main definitions

* `Text.decimal`, `Text.hexadecimal`: a number's digits.
* `Text.readNumeral?`: the value of a numeral, where it is one and stays within the bound.
* `Text.hexOfBytes`, `Text.bytesOfHex?`: bytes as pairs of hexadecimal digits.
-/

namespace IndexControl.Text

/-- The decimal digits of a number. -/
def decimal (n : Nat) : List Char := Nat.toDigits 10 n

theorem decimal_ne_nil (n : Nat) : decimal n ≠ [] := Nat.toDigits_ne_nil

theorem isDigit_of_mem_decimal {n : Nat} {c : Char} (h : c ∈ decimal n) : c.isDigit = true :=
  Nat.isDigit_of_mem_toDigits (by decide) (by decide) h

/-- The lower-case hexadecimal digits of a number. -/
def hexadecimal (n : Nat) : List Char := Nat.toDigits 16 n

/-- Fill up with zeros at the left to `width` characters. -/
def padZeros (width : Nat) (digits : List Char) : List Char :=
  List.replicate (width - digits.length) '0' ++ digits

/-- The value of a digit in any base up to sixteen, in either case. -/
def digitValue (c : Char) : Option Nat :=
  if '0' ≤ c ∧ c ≤ '9' then some (c.toNat - 48)
  else if 'a' ≤ c ∧ c ≤ 'f' then some (c.toNat - 87)
  else if 'A' ≤ c ∧ c ≤ 'F' then some (c.toNat - 55)
  else none

/-- The value of a digit below `base`. -/
def digitBelow (base : Nat) (c : Char) : Option Nat := (digitValue c).filter (· < base)

/-- The value of digits in `base` after `value`, where every character is a digit. -/
def readDigits (base : Nat) : Nat → List Char → Option Nat
  | value, [] => some value
  | value, c :: rest => do readDigits base (value * base + (← digitBelow base c)) rest

/-- The value of a numeral in `base`: at least one digit, after an optional plus sign, and at
most `bound`. -/
def readNumeral? (base bound : Nat) (cs : List Char) : Option Nat :=
  let digits := if cs.head? = some '+' then cs.tail else cs
  if digits.isEmpty then none else (readDigits base 0 digits).filter (· ≤ bound)

/-- The largest number of 32 bits. -/
def maxWord32 : Nat := 4294967295

/-- The largest number of 64 bits. -/
def maxWord64 : Nat := 18446744073709551615

/-! ### Bytes as digit pairs -/

/-- Two hexadecimal digits for each byte. -/
def hexOfBytes (bytes : List UInt8) : List Char :=
  bytes.flatMap fun b => padZeros 2 (hexadecimal b.toNat)

/-- The bytes of pairs of hexadecimal digits. -/
def bytesOfHex? : List Char → Option (List UInt8)
  | [] => some []
  | [_] => none
  | a :: b :: rest => do
    let high ← digitValue a
    let low ← digitValue b
    return UInt8.ofNat (high * 16 + low) :: (← bytesOfHex? rest)

end IndexControl.Text
