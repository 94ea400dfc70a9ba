import IndexControl.Text.Numeral

/-!
# Words of JSON

The strict grammar of RFC 8259: the only blanks are space, tab, line feed and carriage return;
control characters in strings are escaped; numbers have no plus sign and no idle zeros. A string
whose escapes name half of a surrogate pair is a word of the grammar, but it has no text.

A text is written between quotes. Quotes, backslashes and control characters are escaped, the
latter with a letter where JSON has one and with four hexadecimal digits otherwise; everything
else is written as it is.

## Main definitions

* `Json.Token`: the words.
* `Json.readString?`, `Json.readNumber?`: a string after its opening quote, and a number.
* `Json.tokens?`: all words of a text.
* `Json.escape`, `Json.quoted`: how a character and a text are written.
-/

namespace IndexControl.Json

/-- One word of JSON. -/
inductive Token where
  | openBrace
  | closeBrace
  | openBracket
  | closeBracket
  | colon
  | comma
  | null
  | bool (value : Bool)
  /-- A number, with its value where it is written with digits alone. -/
  | number (value : Option Nat)
  /-- A string, with its text where its escapes name characters. -/
  | string (text : Option String)
deriving DecidableEq

/-! ### Strings -/

/-- The value of four hexadecimal digits. -/
def hex4? (a b c d : Char) : Option Nat := Text.readDigits 16 0 [a, b, c, d]

/-- Whether a code unit is the first half of a surrogate pair. -/
def isHighHalf (n : Nat) : Bool := 0xD800 ≤ n && n < 0xDC00

/-- Whether a code unit is the second half of a surrogate pair. -/
def isLowHalf (n : Nat) : Bool := 0xDC00 ≤ n && n < 0xE000

/-- The character of a surrogate pair. -/
def joinHalves (high low : Nat) : Char :=
  Char.ofNat (0x10000 + (high - 0xD800) * 0x400 + (low - 0xDC00))

/-- The character of a short escape. -/
def shortEscape? : Char → Option Char
  | '"' => some '"'
  | '\\' => some '\\'
  | '/' => some '/'
  | 'b' => some '\x08'
  | 'f' => some '\x0c'
  | 'n' => some '\n'
  | 'r' => some '\r'
  | 't' => some '\t'
  | _ => none

/-- One element of a string: a character, or a code unit given by its number. -/
inductive Item where
  | char (c : Char)
  | unit (n : Nat)
deriving DecidableEq

/-- Read the elements of a string after its opening quote, and what follows the closing one. -/
def readItems? : List Char → Option (List Item × List Char)
  | [] => none
  | '"' :: rest => some ([], rest)
  | '\\' :: 'u' :: a :: b :: c :: d :: rest => do
    let n ← hex4? a b c d
    (readItems? rest).map fun r => (.unit n :: r.1, r.2)
  | '\\' :: c :: rest => do
    let c ← shortEscape? c
    (readItems? rest).map fun r => (.char c :: r.1, r.2)
  | c :: rest =>
    if c < ' ' then none else (readItems? rest).map fun r => (.char c :: r.1, r.2)

/-- The characters of some elements. Halves of a surrogate pair have to be next to each
other. -/
def itemsText? : List Item → Option (List Char)
  | [] => some []
  | .char c :: rest => (itemsText? rest).map (c :: ·)
  | .unit high :: .unit low :: rest =>
    if isHighHalf high then
      if isLowHalf low then (itemsText? rest).map (joinHalves high low :: ·) else none
    else if isLowHalf high then none
    else (itemsText? (.unit low :: rest)).map (Char.ofNat high :: ·)
  | .unit n :: rest =>
    if isHighHalf n || isLowHalf n then none else (itemsText? rest).map (Char.ofNat n :: ·)

/-- Read a string after its opening quote: its text, where it has one, and what follows. -/
def readString? (cs : List Char) : Option (Option String × List Char) :=
  (readItems? cs).map fun r => ((itemsText? r.1).map String.ofList, r.2)

/-! ### Numbers -/

/-- The digits at the front and what follows them. -/
def spanDigits (cs : List Char) : List Char × List Char := cs.span Char.isDigit

/-- Cut off a fraction, which is a full stop with digits. `true` says that there was one. -/
def cutFraction? : List Char → Option (Bool × List Char)
  | '.' :: rest =>
    let (digits, rest) := spanDigits rest
    if digits.isEmpty then none else some (true, rest)
  | rest => some (false, rest)

/-- Cut off an exponent. `true` says that there was one. -/
def cutExponent? : List Char → Option (Bool × List Char)
  | c :: rest =>
    if c = 'e' || c = 'E' then
      let rest := match rest with
        | '+' :: more => more
        | '-' :: more => more
        | more => more
      let (digits, rest) := spanDigits rest
      if digits.isEmpty then none else some (true, rest)
    else some (false, c :: rest)
  | [] => some (false, [])

/-- Read a number and what follows it. -/
def readNumber? (cs : List Char) : Option (Option Nat × List Char) := do
  let (negative, cs) := match cs with
    | '-' :: rest => (true, rest)
    | rest => (false, rest)
  let (digits, rest) := spanDigits cs
  if digits.isEmpty || (digits.head? = some '0' && digits.length ≠ 1) then none
  let (fraction, rest) ← cutFraction? rest
  let (exponent, rest) ← cutExponent? rest
  let value := if negative || fraction || exponent then none else Text.readDigits 10 0 digits
  return (value, rest)

/-! ### Words -/

/-- Whether a character may stand between words. -/
def isSpace (c : Char) : Bool := c = ' ' || c = '\t' || c = '\n' || c = '\r'

/-- Read one word at a character that is not a space. -/
def readToken? : List Char → Option (Token × List Char)
  | '{' :: rest => some (.openBrace, rest)
  | '\x7d' :: rest => some (.closeBrace, rest)
  | '[' :: rest => some (.openBracket, rest)
  | ']' :: rest => some (.closeBracket, rest)
  | ':' :: rest => some (.colon, rest)
  | ',' :: rest => some (.comma, rest)
  | 'n' :: 'u' :: 'l' :: 'l' :: rest => some (.null, rest)
  | 't' :: 'r' :: 'u' :: 'e' :: rest => some (.bool true, rest)
  | 'f' :: 'a' :: 'l' :: 's' :: 'e' :: rest => some (.bool false, rest)
  | '"' :: rest => (readString? rest).map fun r => (.string r.1, r.2)
  | cs => (readNumber? cs).map fun r => (.number r.1, r.2)

/-- Read the words of a text of at most `fuel` characters. -/
def tokensFrom : Nat → List Char → Option (List Token)
  | _, [] => some []
  | 0, _ :: _ => none
  | fuel + 1, c :: rest =>
    if isSpace c then tokensFrom fuel rest
    else do
      let (token, rest) ← readToken? (c :: rest)
      return token :: (← tokensFrom fuel rest)

/-- The words of a text, where it consists of words. -/
def tokens? (cs : List Char) : Option (List Token) := tokensFrom cs.length cs

/-! ### Writing strings -/

/-- How a character is written inside of quotes. -/
def escape (c : Char) : List Char :=
  if c = '"' then ['\\', '"']
  else if c = '\\' then ['\\', '\\']
  else if c = '\n' then ['\\', 'n']
  else if c = '\r' then ['\\', 'r']
  else if c = '\t' then ['\\', 't']
  else if c = '\x08' then ['\\', 'b']
  else if c = '\x0c' then ['\\', 'f']
  else if c < ' ' then '\\' :: 'u' :: Text.padZeros 4 (Text.hexadecimal c.toNat)
  else [c]

/-- A text between quotes. -/
def quoted (s : String) : List Char := '"' :: s.toList.flatMap escape ++ ['"']

end IndexControl.Json
