import IndexControl.Text.Blank
import IndexControl.Text.Numeral

/-!
# Flags of indexed roots

A root carries a word of 32 bits. Six of them have names; the others are kept as they are.

## Main definitions

* `Flags`, with the named flags `Flags.recurse` to `Flags.preserve`.
* `Flags.contains`, `Flags.union`, `Flags.without`: set operations.
* `Flags.text`, `Flags.ofText?`: the flags as names and a hexadecimal remainder, and back.
-/

namespace IndexControl

/-- The flags of an indexed root. -/
structure Flags where
  bits : UInt32
deriving DecidableEq, Inhabited

namespace Flags

/-- Coverage extends to everything below. -/
def recurse : Flags := ⟨1⟩

/-- Changes below the root are monitored. -/
def monitor : Flags := ⟨2⟩

/-- The root is crawled ahead of others. -/
def priority : Flags := ⟨4⟩

/-- Modification times are compared with the store on a crawl. -/
def checkTime : Flags := ⟨8⟩

/-- The root is on a removable volume. -/
def isVolume : Flags := ⟨16⟩

/-- Indexed data is kept when the root goes away. -/
def preserve : Flags := ⟨32⟩

/-- No flag. -/
def none : Flags := ⟨0⟩

/-- The flags of either. -/
def union (f g : Flags) : Flags := ⟨f.bits ||| g.bits⟩

/-- The flags of the first that the second does not have. -/
def without (f g : Flags) : Flags := ⟨f.bits &&& ~~~g.bits⟩

/-- Whether all flags of `g` are among those of `f`. -/
def contains (f g : Flags) : Bool := f.bits &&& g.bits = g.bits

/-- Add a flag where a condition holds. -/
def addIf (f : Flags) (condition : Bool) (g : Flags) : Flags := if condition then f.union g else f

/-- The flags of roots that requests create. -/
def onDemand : Flags := ((recurse.union priority).union checkTime).union monitor

/-- The flags of mount points of removable volumes. -/
def removableVolume : Flags := ((recurse.union preserve).union priority).union isVolume

/-- Whether coverage extends to everything below. -/
def isRecursive (f : Flags) : Bool := f.contains recurse

/-! ### Flags as text -/

/-- The named flags in bit order. -/
def named : List (String × Flags) :=
  [("RECURSE", recurse), ("MONITOR", monitor), ("PRIORITY", priority),
    ("CHECK_MTIME", checkTime), ("IS_VOLUME", isVolume), ("PRESERVE", preserve)]

/-- The bits without a name. -/
def unnamed (f : Flags) : Flags := named.foldl (fun rest entry => rest.without entry.2) f

/-- A number in hexadecimal behind `0x`. -/
def hexText (n : Nat) : String := "0x" ++ String.ofList (Text.hexadecimal n)

/-- The names of the flags that are set, in bit order, and last the bits without a name, with
bars between them. -/
def text (f : Flags) : String :=
  let names := (named.filter fun entry => f.contains entry.2).map (·.1)
  let rest := f.unnamed.bits
  " | ".intercalate (names ++ if rest = 0 then [] else [hexText rest.toNat])

/-- The flags as they appear in diagnostics. -/
def debugText (f : Flags) : String :=
  "DirectoryFlags(" ++ (if f.bits = 0 then "0x0" else f.text) ++ ")"

/-- The flags one word stands for: a flag's name, or bits in hexadecimal behind `0x`. -/
def ofWord? (word : List Char) : Option Flags :=
  match Text.stripLead? ['0', 'x'] word with
  | some digits =>
    (Text.readNumeral? 16 Text.maxWord32 digits).map fun n => ⟨UInt32.ofNat n⟩
  | Option.none => (named.find? fun entry => entry.1.toList = word).map (·.2)

/-- The flags of a text: nothing where it is blank, and otherwise the union of its words, which
bars separate and blanks may surround. -/
def ofText? (s : String) : Option Flags :=
  if (Text.dropBlanks s.toList).isEmpty then some none
  else (Text.splitAt '|' s.toList).foldlM (fun flags word =>
    (ofWord? (Text.dropBlanksEnd (Text.dropBlanks word))).map flags.union) none

end Flags

end IndexControl
