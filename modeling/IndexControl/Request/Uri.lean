import IndexControl.Path.Nesting
import IndexControl.Text.Blank
import IndexControl.Text.Numeral

/-!
# File URIs

A file is named by a `file` URI of the local machine, in which bytes may be written as a percent
sign with two hexadecimal digits, or by an absolute path, in which nothing is decoded.

## Main definitions

* `Uri.percentDecode`: the bytes that percent signs stand for.
* `Uri.location?`: the canonical place a URI or an absolute path names.
-/

namespace IndexControl.Uri

/-- The byte of a percent sign. -/
def percent : UInt8 := 0x25

/-- The value of a hexadecimal digit given as a byte. -/
def digit? (b : UInt8) : Option Nat := Text.digitValue (Char.ofNat b.toNat)

/-- The byte that two hexadecimal digits stand for. -/
def byteOfDigits? (high low : UInt8) : Option UInt8 := do
  return UInt8.ofNat ((← digit? high) * 16 + (← digit? low))

/-- The byte that three bytes stand for: a percent sign and two digits. -/
def escaped? (a b c : UInt8) : Option UInt8 := if a = percent then byteOfDigits? b c else none

/-- Replace each percent sign with two digits by the byte it stands for. Any other percent sign
stands for itself. -/
def percentDecode : List UInt8 → List UInt8
  | a :: b :: c :: rest =>
    match escaped? a b c with
    | some byte => byte :: percentDecode rest
    | none => a :: percentDecode (b :: c :: rest)
  | bytes => bytes

/-- What stands before the path of a file on the local machine. -/
def scheme : List Char := "file://".toList

/-- The name under which a URI may mention the local machine. -/
def localHost : List Char := "localhost".toList

/-- Whether a text has the mark of a URI. -/
def hasAuthority : List Char → Bool
  | [] => false
  | c :: rest => [':', '/', '/'].isPrefixOf (c :: rest) || hasAuthority rest

/-- The path in a URI or a plain path, as spelled. URIs of other schemes have none, nor do those
whose decoded bytes are not text. -/
def path? (uri : String) : Option Path :=
  match Text.stripLead? scheme uri.toList with
  | some rest =>
    let rest := (Text.stripLead? localHost rest).getD rest
    (Text.ofUtf8? (percentDecode (Text.utf8 (.ofList rest)))).map .ofString
  | none => if hasAuthority uri.toList then none else some (.ofString uri)

/-- The canonical place that a URI or a plain path names, which is absolute. -/
def location? (uri : String) : Option Location :=
  ((path? uri).filter Path.isAbsolute).map (·.location.canonical)

end IndexControl.Uri
