import IndexControl.Json.Token

/-!
# JSON values

A value is read from its words with the open arrays and objects on a stack, so that nesting is
not limited. Members of an object stay in order, and names may repeat.

## Main definitions

* `Json`: the values.
* `Json.step?`: one word.
* `Json.read?`: the value of a text.
-/

namespace IndexControl

/-- A JSON value. Numbers and strings may lack a value, as their words do. -/
inductive Json where
  | null
  | bool (value : Bool)
  | number (value : Option Nat)
  | string (text : Option String)
  | array (items : List Json)
  | object (members : List (Option String × Json))
deriving Inhabited

namespace Json

/-- An array or object that is still open, with its complete parts, last one first. -/
inductive Frame where
  | array (items : List Json)
  /-- With the name of the member that is being read. -/
  | object (members : List (Option String × Json)) (name : Option String)

/-- What may come next. -/
inductive Expected where
  | value
  | valueOrEnd
  | name (members : List (Option String × Json))
  | nameOrEnd
  | colon (members : List (Option String × Json)) (name : Option String)
  | separator
  /-- Nothing: this is the value. -/
  | nothing (value : Json)

/-- How far the words have been read: the open frames, innermost first, and what may come. -/
structure Reading where
  frames : List Frame
  expected : Expected

/-- Put a complete value into the innermost frame. -/
def Reading.complete (value : Json) : List Frame → Reading
  | [] => ⟨[], .nothing value⟩
  | .array items :: frames => ⟨.array (value :: items) :: frames, .separator⟩
  | .object members name :: frames =>
    ⟨.object ((name, value) :: members) name :: frames, .separator⟩

/-- Begin a value. -/
def Reading.begin? (frames : List Frame) : Token → Option Reading
  | .null => some (complete .null frames)
  | .bool b => some (complete (.bool b) frames)
  | .number n => some (complete (.number n) frames)
  | .string s => some (complete (.string s) frames)
  | .openBracket => some ⟨.array [] :: frames, .valueOrEnd⟩
  | .openBrace => some ⟨frames, .nameOrEnd⟩
  | _ => none

/-- Read one word. -/
def step? (r : Reading) (token : Token) : Option Reading :=
  match r.expected, token with
  | .value, token => Reading.begin? r.frames token
  | .valueOrEnd, .closeBracket => some (Reading.complete (.array []) r.frames.tail)
  | .valueOrEnd, token => Reading.begin? r.frames token
  | .nameOrEnd, .closeBrace => some (Reading.complete (.object []) r.frames)
  | .nameOrEnd, .string name => some { r with expected := .colon [] name }
  | .name members, .string name => some { r with expected := .colon members name }
  | .colon members name, .colon => some ⟨.object members name :: r.frames, .value⟩
  | .separator, token =>
    match r.frames, token with
    | .array _ :: _, .comma => some { r with expected := .value }
    | .array items :: frames, .closeBracket =>
      some (Reading.complete (.array items.reverse) frames)
    | .object members _ :: frames, .comma => some ⟨frames, .name members⟩
    | .object members _ :: frames, .closeBrace =>
      some (Reading.complete (.object members.reverse) frames)
    | _, _ => none
  | _, _ => none

/-- The value of some words. -/
def ofTokens? (tokens : List Token) : Option Json := do
  let r ← tokens.foldlM step? ⟨[], .value⟩
  match r.expected with
  | .nothing value => some value
  | _ => none

/-- The value of a text. -/
def read? (text : String) : Option Json := (tokens? text.toList).bind ofTokens?

end Json

end IndexControl
