import IndexControl.Path.Basic

/-!
# Wildcard patterns

A pattern is read into tokens: literal characters, `?`, `*`, the forms of `**`, character
classes and groups of alternatives. Reading fails on a backslash at the end, on braces that do
not pair up and on a range of a class that runs backwards. A bracket that is never closed is a
literal one, and so are all brackets after it.

## Main definitions

* `Glob.Token`: one token; groups nest.
* `Glob.ClassReading`: what follows an opening bracket.
* `Glob.read?`: the tokens of a pattern.
-/

namespace IndexControl.Glob

/-- One token of a pattern. -/
inductive Token where
  /-- The character itself. -/
  | literal (c : Char)
  /-- `?`: one byte other than a slash. -/
  | any
  /-- `*`: bytes other than slashes. -/
  | star
  /-- `**/` at the front: nothing, or directories and their slash. -/
  | leadingDirs
  /-- `/**` at the end: a slash and anything. -/
  | trailingDirs
  /-- `/**/` inside: a slash, or directories between two slashes. -/
  | innerDirs
  /-- A class of bytes, or with `negated` all bytes outside of it. -/
  | oneOf (negated : Bool) (ranges : List (UInt8 × UInt8))
  /-- A group in braces: any of its branches. -/
  | choice (branches : List (List Token))

/-! ### Classes -/

/-- The byte ranges of a range of characters. Bytes stand for characters one by one: only the
last byte of the first character and the first byte of the last one span a range. -/
def byteRanges (a b : Char) : List (UInt8 × UInt8) :=
  let single := fun (x : UInt8) => (x, x)
  let front := String.utf8EncodeChar a
  let back := String.utf8EncodeChar b
  if a = b then front.map single
  else front.dropLast.map single ++
    (front.getLast?.getD 0, back.head?.getD 0) :: back.tail.map single

/-- What follows an opening bracket. -/
inductive ClassReading where
  /-- A closed class and the rest of the pattern. -/
  | closed (ranges : List (Char × Char)) (rest : List Char)
  /-- No bracket closes it. -/
  | unclosed
  /-- A range in it runs backwards. -/
  | backwards

/-- Read the members of a class. `ranges` holds those read so far, the last one first; `dash`
says that a dash after one of them awaits its upper end. A bracket and a dash are members where
they come first, and so is a dash at the end. -/
def readMembers (isFirst dash : Bool) (ranges : List (Char × Char)) :
    List Char → ClassReading
  | [] => .unclosed
  | c :: rest =>
    if c = ']' && !isFirst then
      .closed ((if dash then ('-', '-') :: ranges else ranges).reverse) rest
    else if c = '-' && !isFirst && !dash then readMembers false true ranges rest
    else if dash then
      match ranges with
      | (low, _) :: others =>
        if c < low then .backwards else readMembers false false ((low, c) :: others) rest
      | [] => readMembers false false [(c, c)] rest
    else readMembers false false ((c, c) :: ranges) rest

/-- The token of a class and the rest of the pattern, read after the opening bracket. -/
def readClass (cs : List Char) : Bool × ClassReading :=
  match cs with
  | '!' :: rest => (true, readMembers true false [] rest)
  | '^' :: rest => (true, readMembers true false [] rest)
  | _ => (false, readMembers true false [] cs)

/-! ### Patterns -/

/-- A group that is still open: the tokens before it and its finished branches, each list with
the last one first. -/
structure OpenGroup where
  before : List Token
  branches : List (List Token)

/-- How far a pattern has been read. -/
structure Reading where
  /-- The open groups, innermost first. -/
  groups : List OpenGroup
  /-- The tokens of the present branch, last one first. -/
  tokens : List Token
  /-- The character read last. -/
  last : Option Char
  /-- Whether an unclosed bracket has been met. -/
  plainBrackets : Bool

/-- Before the first character. -/
def Reading.start : Reading := ⟨[], [], none, false⟩

/-- Add a token, having read up to `last`. -/
def Reading.push (r : Reading) (token : Token) (last : Char) : Reading :=
  { r with tokens := token :: r.tokens, last := some last }

/-- Read what follows a star. Two stars span directories where slashes or the ends of a branch
are on both sides of them, and are two single stars elsewhere. -/
def Reading.star (r : Reading) : List Char → Reading × List Char
  | '*' :: rest =>
    let twice := (r.push .star '*').push .star '*'
    if r.tokens.isEmpty then
      match rest with
      | [] => (r.push .leadingDirs '*', [])
      | '/' :: rest => (r.push .leadingDirs '/', rest)
      | _ => (twice, rest)
    else if r.last != some '/' &&
        (r.groups.isEmpty || (r.last != some ',' && r.last != some '{')) then (twice, rest)
    else
      let dirs := fun (other : Token) (last : Char) =>
        let token := match r.tokens with
          | .leadingDirs :: _ => .leadingDirs
          | .trailingDirs :: _ => .trailingDirs
          | _ => other
        { r with tokens := token :: r.tokens.tail, last := some last : Reading }
      match rest with
      | [] => (dirs .trailingDirs '*', [])
      | c :: tail =>
        if c = '/' then (dirs .innerDirs '/', tail)
        else if (c = ',' || c = '}') && !r.groups.isEmpty then (dirs .trailingDirs '*', rest)
        else (twice, rest)
  | rest => (r.push .star '*', rest)

/-- Read the rest of a pattern; `fuel` bounds the number of characters. -/
def readFrom : Nat → Reading → List Char → Option (List Token)
  | _, r, [] => if r.groups.isEmpty then some r.tokens.reverse else none
  | 0, _, _ :: _ => none
  | fuel + 1, r, c :: rest =>
    match c with
    | '?' => readFrom fuel (r.push .any c) rest
    | '*' =>
      let (r, rest) := r.star rest
      readFrom fuel r rest
    | '[' =>
      if r.plainBrackets then readFrom fuel (r.push (.literal c) c) rest
      else match readClass rest with
        | (negated, .closed ranges rest) =>
          readFrom fuel (r.push (.oneOf negated (ranges.flatMap fun x => byteRanges x.1 x.2)) ']')
            rest
        | (_, .unclosed) =>
          readFrom fuel { r.push (.literal c) c with plainBrackets := true } rest
        | (_, .backwards) => none
    | '{' =>
      readFrom fuel { r with groups := ⟨r.tokens, []⟩ :: r.groups, tokens := [], last := some c }
        rest
    | '}' =>
      match r.groups with
      | [] => none
      | group :: groups =>
        let branches := (r.tokens.reverse :: group.branches).reverse
        readFrom fuel
          { r with groups, tokens := .choice branches :: group.before, last := some c } rest
    | ',' =>
      match r.groups with
      | [] => readFrom fuel (r.push (.literal c) c) rest
      | group :: groups =>
        let group := { group with branches := r.tokens.reverse :: group.branches }
        readFrom fuel { r with groups := group :: groups, tokens := [], last := some c } rest
    | '\\' =>
      match rest with
      | [] => none
      | d :: rest => readFrom fuel (r.push (.literal d) d) rest
    | _ => readFrom fuel (r.push (.literal c) c) rest

/-- The tokens of a pattern, if it can be read. -/
def read? (pattern : List Char) : Option (List Token) :=
  readFrom pattern.length .start pattern

end IndexControl.Glob
